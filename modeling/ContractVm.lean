import ContractVm.Engine
import ContractVm.Options.Reader
import ContractVm.Tower
import ContractVm.Proofs.TowerSync
import ContractVm.Proofs.Atomicity
import ContractVm.Proofs.ReadOnly
import ContractVm.Proofs.Conservation
import ContractVm.Proofs.Effects
import ContractVm.Proofs.Nesting
import ContractVm.Proofs.Attribution
import ContractVm.Proofs.Identity
import ContractVm.Proofs.Costs
import ContractVm.Proofs.Termination
import ContractVm.Proofs.Authority
import ContractVm.Proofs.Forwarding
import ContractVm.Proofs.Fetch
import ContractVm.Proofs.Lasting
import ContractVm.Proofs.Budget
import ContractVm.Proofs.Derivations
import ContractVm.Proofs.Residue
import ContractVm.Proofs.Survival
import ContractVm.Proofs.StaticExecution
import ContractVm.Proofs.RefusedSync
import ContractVm.Proofs.MemoryArray
import ContractVm.Proofs.Decomposition
import ContractVm.Proofs.Operands
import ContractVm.Proofs.TwosComplement
import ContractVm.Proofs.Delivery
import ContractVm.Proofs.Detours
import ContractVm.Proofs.Copying
import ContractVm.Proofs.ModularArithmetic
import ContractVm.Proofs.ModularExponentiation
import ContractVm.Proofs.StackList
import ContractVm.Proofs.ReasonText
import ContractVm.Proofs.Revocation
import ContractVm.Proofs.Lookups
import ContractVm.Proofs.LedgerListing
import ContractVm.Proofs.HexText
import ContractVm.Proofs.BigEndian
