import Mathlib
import ContractVm.Proofs.ReasonText

/-! # Hexadecimal text

A text spells a byte string if it consists of one pair of digits for each byte, behind a mark or not
(`Hex.Spells`). A text of even length that spells nothing has a first byte that is no digit
(`Hex.spells_or_other`), and so there are four things that reading a number of a fixed width can
come to (`Hex.Reading`). Printing spells the number in lower case. -/

namespace ContractVm

/-! ### Bytes of texts -/

namespace Bytes

theorem toList_loop (bs : ByteArray) (i : Nat) (before : List UInt8) :
    ByteArray.toList.loop bs i before = before.reverse ++ bs.data.toList.drop i := by
  fun_induction ByteArray.toList.loop bs i before with
  | case1 i before hi ih =>
    have hi : i < bs.data.toList.length := hi
    have hbyte : bs.get! i = bs.data.toList[i] := by
      obtain ⟨data⟩ := bs
      exact getElem!_pos data i hi
    rw [ih, List.drop_eq_getElem_cons hi, hbyte, List.reverse_cons, List.append_assoc,
      List.singleton_append]
  | case2 i before hi =>
    have hi : bs.data.toList.length ≤ i := Nat.le_of_not_lt hi
    rw [List.drop_eq_nil_of_le hi, List.append_nil]

theorem toList_toUTF8 (text : String) : text.toUTF8.toList = ofText text := by
  rw [ByteArray.toList, toList_loop, List.reverse_nil, List.nil_append, List.drop_zero]
  rfl

theorem ofText_append (a b : String) : ofText (a ++ b) = ofText a ++ ofText b := by
  simp only [ofText, String.toByteArray_append, ByteArray.data_append, Array.toList_append]

theorem ofText_ofList (cs : List Char) :
    ofText (String.ofList cs) = cs.flatMap String.utf8EncodeChar := by
  rw [ofText, String.toByteArray_ofList, List.utf8Encode, List.toList_data_toByteArray]

end Bytes

/-- A character below 128 is one byte, and no other begins with such a byte. -/
theorem utf8EncodeChar_head {c : Char} {b : UInt8} {rest : List UInt8} (hb : b.toNat < 128)
    (h : String.utf8EncodeChar c = b :: rest) : c.toNat = b.toNat ∧ rest = [] := by
  have hc : c.val.toNat = c.toNat := rfl
  unfold String.utf8EncodeChar at h
  dsimp only at h
  split_ifs at h with h1 h2 h3
  all_goals
    obtain ⟨rfl, hrest⟩ := List.cons.inj h
    rw [UInt8.toNat_ofNat'] at hb
  · rw [UInt8.toNat_ofNat']
    exact ⟨by omega, hrest.symm⟩
  all_goals omega

theorem flatMap_utf8_head {cs : List Char} {c : Char} {rest : List UInt8} (hc : c.toNat < 128)
    (h : cs.flatMap String.utf8EncodeChar = UInt8.ofNat c.toNat :: rest) :
    ∃ cs', cs = c :: cs' ∧ cs'.flatMap String.utf8EncodeChar = rest := by
  cases cs with
  | nil => cases h
  | cons first cs =>
    have hcode : (UInt8.ofNat c.toNat).toNat = c.toNat := by
      rw [UInt8.toNat_ofNat']
      omega
    rw [List.flatMap_cons] at h
    obtain ⟨b, others, hfirst⟩ := List.exists_cons_of_ne_nil
      (@String.utf8EncodeChar_ne_nil first)
    rw [hfirst, List.cons_append] at h
    obtain ⟨rfl, hrest⟩ := List.cons.inj h
    obtain ⟨hsame, rfl⟩ := utf8EncodeChar_head (by omega) hfirst
    have hchar : first = c := Char.ext (UInt32.toNat_inj.1 (hsame.trans hcode))
    exact ⟨cs, by rw [hchar], hrest⟩

namespace Hex

/-- The byte is a hexadecimal digit, in either case, with the value `n`. -/
def Denotes (b : UInt8) (n : Nat) : Prop :=
  n < 10 ∧ b.toNat = '0'.toNat + n ∨
    10 ≤ n ∧ n < 16 ∧ (b.toNat = 'a'.toNat + (n - 10) ∨ b.toNat = 'A'.toNat + (n - 10))

def IsDigit (b : UInt8) : Prop :=
  ∃ n, Denotes b n

/-- The digits spell the byte string, two for each byte and the high one first. -/
inductive Spells : Bytes → Bytes → Prop where
  | nil : Spells [] []
  | cons {high low : UInt8} {h l : Nat} {digits bs : Bytes} (hh : Denotes high h)
      (hl : Denotes low l) (rest : Spells digits bs) :
      Spells (high :: low :: digits) (UInt8.ofNat (16 * h + l) :: bs)

/-- The first byte that is no digit is `b`, at the position `i`. -/
structure FirstOther (digits : Bytes) (b : UInt8) (i : Nat) : Prop where
  at_position : digits[i]? = some b
  not_digit : ¬ IsDigit b
  before : ∀ c ∈ digits.take i, IsDigit c

/-- An ASCII letter in lower case. -/
def lowered (b : UInt8) : UInt8 :=
  if 'A'.toNat ≤ b.toNat ∧ b.toNat ≤ 'Z'.toNat then b + 32 else b

/-! ### Digits -/

theorem digitValue?_eq_some_iff {b : UInt8} {n : Nat} : digitValue? b = some n ↔ Denotes b n := by
  have h0 : '0'.toNat = 48 := rfl
  have ha : 'a'.toNat = 97 := rfl
  have hA : 'A'.toNat = 65 := rfl
  unfold digitValue? Denotes
  dsimp only
  split_ifs
  · rw [Option.some.injEq]
    omega
  · rw [Option.some.injEq]
    omega
  · rw [Option.some.injEq]
    omega
  · constructor
    · intro hnone
      cases hnone
    · omega

theorem digitValue?_eq_none_iff {b : UInt8} : digitValue? b = none ↔ ¬ IsDigit b := by
  simp only [Option.eq_none_iff_forall_ne_some, ne_eq, digitValue?_eq_some_iff, IsDigit, not_exists]

theorem readDigit_ok {b : UInt8} {n : Nat} (h : Denotes b n) (position : Nat) :
    readDigit position b = .ok n := by
  rw [readDigit, digitValue?_eq_some_iff.2 h]

theorem readDigit_error {b : UInt8} (h : ¬ IsDigit b) (position : Nat) :
    readDigit position b = .error (.invalidByte b position) := by
  rw [readDigit, digitValue?_eq_none_iff.2 h]

/-! ### Pairs of digits -/

theorem Spells.length {digits bs : Bytes} (h : Spells digits bs) :
    digits.length = 2 * bs.length := by
  induction h with
  | nil => rfl
  | cons hh hl rest ih =>
    simp only [List.length_cons]
    omega

theorem Spells.all_digits {digits bs : Bytes} (h : Spells digits bs) : ∀ b ∈ digits, IsDigit b := by
  induction h with
  | nil => exact fun b hb => absurd hb List.not_mem_nil
  | cons hh hl rest ih =>
    intro b hb
    rcases List.mem_cons.1 hb with rfl | hb
    · exact ⟨_, hh⟩
    rcases List.mem_cons.1 hb with rfl | hb
    · exact ⟨_, hl⟩
    · exact ih b hb

theorem readPairs_ok {digits bs : Bytes} (h : Spells digits bs) (position : Nat) :
    readPairs position digits = .ok bs := by
  induction h generalizing position with
  | nil => rfl
  | cons hh hl rest ih =>
    rw [readPairs, readDigit_ok hh, readDigit_ok hl, ih]
    rfl

theorem firstOther_zero {c b : UInt8} {digits : Bytes} :
    FirstOther (c :: digits) b 0 ↔ c = b ∧ ¬ IsDigit c := by
  constructor
  · intro h
    obtain rfl := Option.some.inj h.at_position
    exact ⟨rfl, h.not_digit⟩
  · rintro ⟨rfl, hc⟩
    exact ⟨rfl, hc, fun b hb => absurd hb List.not_mem_nil⟩

theorem firstOther_succ {c b : UInt8} {digits : Bytes} {i : Nat} :
    FirstOther (c :: digits) b (i + 1) ↔ IsDigit c ∧ FirstOther digits b i := by
  constructor
  · intro h
    exact ⟨h.before c List.mem_cons_self, h.at_position, h.not_digit,
      fun b hb => h.before b (List.mem_cons_of_mem c hb)⟩
  · rintro ⟨hc, h⟩
    refine ⟨h.at_position, h.not_digit, fun b hb => ?_⟩
    rcases List.mem_cons.1 hb with rfl | hb
    · exact hc
    · exact h.before b hb

theorem readPairs_error {digits : Bytes} {b : UInt8} {i : Nat} (heven : digits.length % 2 = 0)
    (h : FirstOther digits b i) (position : Nat) :
    readPairs position digits = .error (.invalidByte b (position + i)) := by
  induction position, digits using readPairs.induct generalizing i with
  | case1 position => cases h.at_position
  | case2 position head => cases heven
  | case3 position high low rest ih =>
    rw [readPairs]
    rcases i with _ | _ | i
    · obtain ⟨rfl, hhigh⟩ := firstOther_zero.1 h
      rw [readDigit_error hhigh]
      rfl
    · obtain ⟨⟨n, hhigh⟩, hrest⟩ := firstOther_succ.1 h
      obtain ⟨rfl, hlow⟩ := firstOther_zero.1 hrest
      rw [readDigit_ok hhigh, readDigit_error hlow]
      rfl
    · obtain ⟨⟨n, hhigh⟩, hrest⟩ := firstOther_succ.1 h
      obtain ⟨⟨k, hlow⟩, hrest⟩ := firstOther_succ.1 hrest
      have hposition : position + 2 + i = position + (i + 1 + 1) := by omega
      have hlength : rest.length % 2 = 0 := by
        simp only [List.length_cons] at heven
        omega
      rw [readDigit_ok hhigh, readDigit_ok hlow, ih hlength hrest, hposition]
      rfl

/-- Digits of even number spell something, or one of them is the first that is no digit. -/
theorem spells_or_other :
    ∀ {digits : Bytes}, digits.length % 2 = 0 →
      (∃ bs, Spells digits bs) ∨ ∃ b i, FirstOther digits b i
  | [], _ => Or.inl ⟨[], .nil⟩
  | [_], heven => by cases heven
  | high :: low :: digits, heven => by
    have hlength : digits.length % 2 = 0 := by
      simp only [List.length_cons] at heven
      omega
    by_cases hhigh : IsDigit high
    · by_cases hlow : IsDigit low
      · rcases spells_or_other hlength with ⟨bs, hbs⟩ | ⟨b, i, hother⟩
        · obtain ⟨h, hh⟩ := hhigh
          obtain ⟨l, hl⟩ := hlow
          exact Or.inl ⟨_, .cons hh hl hbs⟩
        · exact Or.inr ⟨b, i + 1 + 1,
            firstOther_succ.2 ⟨hhigh, firstOther_succ.2 ⟨hlow, hother⟩⟩⟩
      · exact Or.inr ⟨low, 1, firstOther_succ.2 ⟨hhigh, firstOther_zero.2 ⟨rfl, hlow⟩⟩⟩
    · exact Or.inr ⟨high, 0, firstOther_zero.2 ⟨rfl, hhigh⟩⟩

/-! ### Complaints -/

/-- The number that hexadecimal digits write, up to the first character that is none. -/
def digitsValue (n : Nat) : List Char → Nat
  | [] => n
  | c :: rest =>
    match digitValue? (UInt8.ofNat c.toNat) with
    | some d => digitsValue (16 * n + d) rest
    | none => n

/-- Reads the byte that a complaint quotes. -/
def unquote : List Char → Nat
  | '\'' :: '\\' :: 'u' :: '\x7b' :: digits => digitsValue 0 digits
  | ['\'', '\\', '0', '\''] => 0
  | ['\'', '\\', 't', '\''] => 9
  | ['\'', '\\', 'n', '\''] => 10
  | ['\'', '\\', 'r', '\''] => 13
  | ['\'', '\\', c, '\''] => c.toNat
  | ['\'', c, '\''] => c.toNat
  | _ => 0

theorem unquote_quote_ofNat : ∀ n < 256, unquote (quote (UInt8.ofNat n)).toList = n := by
  decide +kernel

theorem quote_injective : Function.Injective quote := by
  intro b c h
  have hb := unquote_quote_ofNat b.toNat b.toNat_lt
  have hc := unquote_quote_ofNat c.toNat c.toNat_lt
  rw [UInt8.ofNat_toNat] at hb hc
  rw [h, hc] at hb
  exact UInt8.toNat_inj.1 hb.symm

/-- The digits that a complaint ends with are those of the position, as a space comes before them. -/
theorem takeWhile_position (text : String) (n : Nat) :
    (text ++ " at position " ++ toString n).toList.reverse.takeWhile Char.isDigit =
      n.repr.toList.reverse := by
  have hdigits : ∀ c ∈ n.repr.toList.reverse, c.isDigit = true := by
    intro c hc
    rw [List.mem_reverse, Nat.toList_repr] at hc
    exact Nat.isDigit_of_mem_toDigits (by omega) (by omega) hc
  have hspace :
      (" at position ".toList.reverse ++ text.toList.reverse).takeWhile Char.isDigit = [] := rfl
  rw [Nat.toString_eq_repr, String.toList_append, String.toList_append, List.reverse_append,
    List.reverse_append, List.takeWhile_append_of_pos hdigits, hspace, List.append_nil]

theorem position_inj {s t : String} {i j : Nat}
    (h : s ++ " at position " ++ toString i = t ++ " at position " ++ toString j) :
    s = t ∧ i = j := by
  have hdigits := takeWhile_position s i
  rw [h, takeWhile_position, List.reverse_inj, String.toList_inj, Nat.repr_inj] at hdigits
  subst hdigits
  exact ⟨(String.append_left_inj _).1 ((String.append_left_inj _).1 h), rfl⟩

/-- The text of a complaint tells the byte and the position that the complaint is about. -/
theorem message_eq_iff {reason : Malformed} {b : UInt8} {i : Nat} :
    reason.message = "Invalid character " ++ quote b ++ " at position " ++ toString i ↔
      reason = .invalidByte b i := by
  constructor
  · intro h
    cases reason with
    | oddLength =>
      have hfirst : ("Invalid character " ++ quote b ++ " at position " ++ toString i).toList.head? =
          some 'I' := by
        simp only [String.toList_append]
        rfl
      rw [← h] at hfirst
      cases hfirst
    | invalidByte c j =>
      obtain ⟨hquoted, rfl⟩ := position_inj h
      rw [quote_injective ((String.append_right_inj _).1 hquoted)]
  · rintro rfl
    rfl

/-! ### Printing -/

theorem encodeChar_digit {n : Nat} (hn : n < 16) :
    ∃ b : UInt8, String.utf8EncodeChar (digit n) = [b] ∧
      b.toNat = if n < 10 then 48 + n else 87 + n := by
  interval_cases n
  all_goals exact ⟨_, rfl, rfl⟩

theorem denotes_of_digit {n : Nat} {b : UInt8} (hn : n < 16)
    (hb : b.toNat = if n < 10 then 48 + n else 87 + n) : Denotes b n := by
  have h0 : '0'.toNat = 48 := rfl
  have ha : 'a'.toNat = 97 := rfl
  unfold Denotes
  split_ifs at hb
  · exact Or.inl (by omega)
  · exact Or.inr (by omega)

theorem Denotes.lt {b : UInt8} {n : Nat} (h : Denotes b n) : n < 16 := by
  rcases h with ⟨hn, -⟩ | ⟨-, hn, -⟩
  · omega
  · exact hn

/-- A digit is printed as it was read, but in lower case. -/
theorem Denotes.encodeChar {b : UInt8} {n : Nat} (h : Denotes b n) :
    String.utf8EncodeChar (digit n) = [lowered b] := by
  obtain ⟨c, hc, hvalue⟩ := encodeChar_digit h.lt
  have h0 : '0'.toNat = 48 := rfl
  have ha : 'a'.toNat = 97 := rfl
  have hA : 'A'.toNat = 65 := rfl
  have hZ : 'Z'.toNat = 90 := rfl
  have hlowered : (lowered b).toNat = c.toNat := by
    unfold Denotes at h
    unfold lowered
    have hadd : (b + 32).toNat = (b.toNat + 32) % 256 := UInt8.toNat_add b 32
    split_ifs at hvalue ⊢ <;> omega
  rw [hc, UInt8.toNat_inj.1 hlowered]

theorem ofText_encode_cons (b : UInt8) (bs : Bytes) :
    Bytes.ofText (encode (b :: bs)) = String.utf8EncodeChar (digit (b.toNat / 16)) ++
      (String.utf8EncodeChar (digit (b.toNat % 16)) ++ Bytes.ofText (encode bs)) := by
  simp only [encode, Bytes.ofText_ofList, List.flatMap_cons, List.cons_append, List.nil_append]

theorem spells_encode (bs : Bytes) : Spells (Bytes.ofText (encode bs)) bs := by
  induction bs with
  | nil => exact .nil
  | cons b bs ih =>
    have hb : b.toNat < 256 := b.toNat_lt
    have hhigh : b.toNat / 16 < 16 := by omega
    have hlow : b.toNat % 16 < 16 := by omega
    obtain ⟨high, hc, hh⟩ := encodeChar_digit hhigh
    obtain ⟨low, hc', hl⟩ := encodeChar_digit hlow
    have hwhole : UInt8.ofNat (16 * (b.toNat / 16) + b.toNat % 16) = b := by
      rw [Nat.div_add_mod, UInt8.ofNat_toNat]
    rw [ofText_encode_cons, hc, hc']
    have hpair := Spells.cons (denotes_of_digit hhigh hh) (denotes_of_digit hlow hl) ih
    rwa [hwhole] at hpair

theorem Spells.printed {digits bs : Bytes} (h : Spells digits bs) :
    Bytes.ofText (encode bs) = digits.map lowered := by
  induction h with
  | nil => rfl
  | @cons high low h l digits bs hh hl rest ih =>
    have hvalue : (UInt8.ofNat (16 * h + l)).toNat = 16 * h + l := by
      have hhigh := hh.lt
      have hlow := hl.lt
      rw [UInt8.toNat_ofNat']
      omega
    have hhigh : (16 * h + l) / 16 = h := by
      have hlow := hl.lt
      omega
    have hlow : (16 * h + l) % 16 = l := by
      have hlow := hl.lt
      omega
    rw [ofText_encode_cons, hvalue, hhigh, hlow, hh.encodeChar, hl.encodeChar, ih]
    rfl

/-! ### The mark -/

theorem withoutMark_marked (rest : String) : withoutMark ("0x" ++ rest) = Bytes.ofText rest := by
  have hmark : Bytes.ofText "0x" = [0x30, 0x78] := by rfl
  rw [withoutMark, Bytes.toList_toUTF8, Bytes.ofText_append, hmark]
  rfl

theorem exists_marked {text : String} {rest : Bytes}
    (h : Bytes.ofText text = 0x30 :: 0x78 :: rest) : ∃ digits, text = "0x" ++ digits := by
  rw [← String.ofList_toList (s := text), Bytes.ofText_ofList] at h
  obtain ⟨cs, hzero, h⟩ := flatMap_utf8_head (c := '0') (by decide) h
  obtain ⟨cs', rfl, -⟩ := flatMap_utf8_head (c := 'x') (by decide) h
  refine ⟨String.ofList cs', ?_⟩
  rw [← String.ofList_toList (s := text), hzero]
  exact (String.ofList_append : String.ofList (['0', 'x'] ++ cs') = _)

theorem withoutMark_unmarked {text : String} (h : ∀ rest, text ≠ "0x" ++ rest) :
    withoutMark text = Bytes.ofText text := by
  rw [withoutMark, Bytes.toList_toUTF8]
  split
  · next rest hbytes =>
    obtain ⟨digits, hdigits⟩ := exists_marked hbytes
    exact absurd hdigits (h digits)
  · rfl

/-! ### Reading a number -/

/-- What reading a number of `size` bytes from digits can come to. -/
inductive Reading (size : Nat) (digits : Bytes) : Except Misspelled Nat → Prop where
  | odd (h : digits.length % 2 = 1) : Reading size digits (.error (.hex .oddLength))
  | other {b : UInt8} {i : Nat} (heven : digits.length % 2 = 0) (h : FirstOther digits b i) :
      Reading size digits (.error (.hex (.invalidByte b i)))
  | length {bs : Bytes} (h : Spells digits bs) (hsize : bs.length ≠ size) :
      Reading size digits (.error (.length size bs.length))
  | number {bs : Bytes} (h : Spells digits bs) (hsize : bs.length = size) :
      Reading size digits (.ok bs.value)

theorem Spells.even {digits bs : Bytes} (h : Spells digits bs) : digits.length % 2 = 0 := by
  rw [h.length, Nat.mul_mod_right]

theorem decodeBytes_odd {digits : Bytes} (h : digits.length % 2 = 1) :
    decodeBytes digits = .error .oddLength :=
  if_pos h

theorem decodeBytes_other {digits : Bytes} {b : UInt8} {i : Nat} (heven : digits.length % 2 = 0)
    (h : FirstOther digits b i) : decodeBytes digits = .error (.invalidByte b i) := by
  rw [decodeBytes, if_neg (by omega), readPairs_error heven h, Nat.zero_add]

theorem decodeBytes_spells {digits bs : Bytes} (h : Spells digits bs) :
    decodeBytes digits = .ok bs := by
  have heven := h.even
  rw [decodeBytes, if_neg (by omega), readPairs_ok h]

theorem spells_of_digits {digits : Bytes} {n : Nat} (hlength : digits.length = 2 * n)
    (hall : ∀ b ∈ digits, IsDigit b) : ∃ bs, Spells digits bs ∧ bs.length = n := by
  have heven : digits.length % 2 = 0 := by rw [hlength, Nat.mul_mod_right]
  rcases spells_or_other heven with ⟨bs, hbs⟩ | ⟨b, i, hother⟩
  · have hbytes := hbs.length
    exact ⟨bs, hbs, by omega⟩
  · exact absurd (hall b (List.mem_of_getElem? hother.at_position)) hother.not_digit

section Outcomes

variable {size : Nat} {text : String}

theorem readHex_spells {bs : Bytes} (h : Spells (withoutMark text) bs) :
    readHex size text = readExact size bs := by
  rw [readHex, decodeBytes_spells h]

theorem readHex_odd (h : (withoutMark text).length % 2 = 1) :
    readHex size text = .error (.hex .oddLength) := by
  rw [readHex, decodeBytes_odd h]

theorem readHex_other {b : UInt8} {i : Nat} (heven : (withoutMark text).length % 2 = 0)
    (h : FirstOther (withoutMark text) b i) :
    readHex size text = .error (.hex (.invalidByte b i)) := by
  rw [readHex, decodeBytes_other heven h]

theorem reading (size : Nat) (text : String) :
    Reading size (withoutMark text) (readHex size text) := by
  rcases Nat.mod_two_eq_zero_or_one (withoutMark text).length with heven | hodd
  · rcases spells_or_other heven with ⟨bs, hbs⟩ | ⟨b, i, hother⟩
    · rw [readHex_spells hbs, readExact]
      split
      · next hsize => exact .number hbs hsize
      · next hsize => exact .length hbs hsize
    · rw [readHex_other heven hother]
      exact .other heven hother
  · rw [readHex_odd hodd]
    exact .odd hodd

theorem readHex_odd_iff :
    readHex size text = .error (.hex .oddLength) ↔ (withoutMark text).length % 2 = 1 := by
  refine ⟨fun h => ?_, readHex_odd⟩
  have hreading := reading size text
  rw [h] at hreading
  cases hreading
  assumption

theorem readHex_other_iff {b : UInt8} {i : Nat} :
    readHex size text = .error (.hex (.invalidByte b i)) ↔
      (withoutMark text).length % 2 = 0 ∧ FirstOther (withoutMark text) b i := by
  refine ⟨fun h => ?_, fun h => readHex_other h.1 h.2⟩
  have hreading := reading size text
  rw [h] at hreading
  cases hreading with
  | other heven hother => exact ⟨heven, hother⟩

theorem readHex_length_iff {expected actual : Nat} :
    readHex size text = .error (.length expected actual) ↔
      expected = size ∧ actual ≠ size ∧
        (withoutMark text).length = 2 * actual ∧ ∀ b ∈ withoutMark text, IsDigit b := by
  constructor
  · intro h
    have hreading := reading size text
    rw [h] at hreading
    cases hreading with
    | length hspells hne => exact ⟨rfl, hne, hspells.length, hspells.all_digits⟩
  · rintro ⟨rfl, hne, hlength, hall⟩
    obtain ⟨bs, hspells, rfl⟩ := spells_of_digits hlength hall
    rw [readHex_spells hspells, readExact, if_neg hne]

end Outcomes

/-- How numbers that have `size` bytes are read from text and printed. -/
structure Grammar {w : Nat} (size : Nat) (toBytes : BitVec w → Bytes) (toHex : BitVec w → String)
    (ofHex : String → Except Misspelled (BitVec w)) : Prop where
  value : ∀ text v, ofHex text = .ok v ↔ Spells (withoutMark text) (toBytes v)
  accepts : ∀ text, (∃ v, ofHex text = .ok v) ↔
    (withoutMark text).length = 2 * size ∧ ∀ b ∈ withoutMark text, IsDigit b
  reads_back : ∀ v, ofHex (toHex v) = .ok v
  lowers : ∀ text v, ofHex text = .ok v →
    Bytes.ofText (toHex v) = Bytes.ofText "0x" ++ (withoutMark text).map lowered
  odd : ∀ text, ofHex text = .error (.hex .oddLength) ↔ (withoutMark text).length % 2 = 1
  other : ∀ text b i, ofHex text = .error (.hex (.invalidByte b i)) ↔
    (withoutMark text).length % 2 = 0 ∧ FirstOther (withoutMark text) b i
  named : ∀ text b i, (∃ reason, ofHex text = .error (.hex reason) ∧
      reason.message = "Invalid character " ++ quote b ++ " at position " ++ toString i) ↔
    (withoutMark text).length % 2 = 0 ∧ FirstOther (withoutMark text) b i
  length : ∀ text expected actual, ofHex text = .error (.length expected actual) ↔
    expected = size ∧ actual ≠ size ∧
      (withoutMark text).length = 2 * actual ∧ ∀ b ∈ withoutMark text, IsDigit b

section Width

variable {w size : Nat} {toBytes : BitVec w → Bytes} {toHex : BitVec w → String}
  {ofHex : String → Except Misspelled (BitVec w)}

theorem value_iff (hw : 2 ^ w = 256 ^ size) (hbytes : ∀ v, toBytes v = Bytes.ofNat size v.toNat)
    (hread : ∀ text, ofHex text = (readHex size text).map (BitVec.ofNat w)) (text : String)
    (v : BitVec w) : ofHex text = .ok v ↔ Spells (withoutMark text) (toBytes v) := by
  rw [hread]
  constructor
  · intro h
    have hreading := reading size text
    generalize readHex size text = r at hreading h
    cases hreading with
    | odd => cases h
    | other => cases h
    | length => cases h
    | @number bs hspells hsize =>
      obtain rfl := Except.ok.inj h
      have hlt : Bytes.value bs < 2 ^ w := by
        rw [hw, ← hsize]
        exact Bytes.value_lt bs
      rwa [hbytes, BitVec.toNat_ofNat, Nat.mod_eq_of_lt hlt, ← hsize, Bytes.ofNat_value]
  · intro h
    have hlt : v.toNat < 256 ^ size := hw ▸ v.isLt
    have hvalue : Bytes.value (toBytes v) = v.toNat := by
      rw [hbytes, Bytes.value_ofNat, Nat.mod_eq_of_lt hlt]
    have hsize : (toBytes v).length = size := by rw [hbytes, Bytes.length_ofNat]
    rw [readHex_spells h, readExact, if_pos hsize, hvalue]
    exact congrArg Except.ok (BitVec.eq_of_toNat_eq (by simp))

theorem grammar (hw : 2 ^ w = 256 ^ size) (hbytes : ∀ v, toBytes v = Bytes.ofNat size v.toNat)
    (hprint : ∀ v, toHex v = "0x" ++ encode (toBytes v))
    (hread : ∀ text, ofHex text = (readHex size text).map (BitVec.ofNat w)) :
    Grammar size toBytes toHex ofHex := by
  have hvalue := value_iff hw hbytes hread
  have hfails : ∀ text reason, ofHex text = .error reason ↔ readHex size text = .error reason := by
    intro text reason
    rw [hread]
    cases readHex size text <;> simp [Except.map]
  have hsize : ∀ v, (toBytes v).length = size := fun v => by rw [hbytes, Bytes.length_ofNat]
  have hother : ∀ text b i, ofHex text = .error (.hex (.invalidByte b i)) ↔
      (withoutMark text).length % 2 = 0 ∧ FirstOther (withoutMark text) b i :=
    fun text b i => (hfails text _).trans readHex_other_iff
  refine
    { value := hvalue
      accepts := fun text => ⟨?_, ?_⟩
      reads_back := fun v => ?_
      lowers := fun text v h => ?_
      odd := fun text => (hfails text _).trans readHex_odd_iff
      other := hother
      named := fun text b i => ?_
      length := fun text expected actual => (hfails text _).trans readHex_length_iff }
  · rintro ⟨v, h⟩
    have hspells := (hvalue text v).1 h
    rw [← hsize v]
    exact ⟨hspells.length, hspells.all_digits⟩
  · rintro ⟨hlength, hall⟩
    obtain ⟨bs, hspells, hbs⟩ := spells_of_digits hlength hall
    rw [hread, readHex_spells hspells, readExact, if_pos hbs]
    exact ⟨_, rfl⟩
  · rw [hvalue, hprint, withoutMark_marked]
    exact spells_encode (toBytes v)
  · rw [hprint, Bytes.ofText_append, ((hvalue text v).1 h).printed]
  · simp only [message_eq_iff, exists_eq_right, hother]

end Width

end Hex

/-- Addresses and words are read from exactly the texts that have two hexadecimal digits for each of
their bytes, behind one mark or none, and are printed as such a text in lower case, which is read
back. Any other text is rejected for an odd number of bytes; if that is even, for the first byte
that is no digit, which the complaint quotes with its position; and if there is none, for the number
of bytes that it spells. -/
theorem hex_text_is_read_by_its_grammar :
    Hex.Grammar 20 Address.toBytes Address.toHex Address.ofHex ∧
    Hex.Grammar 32 Word.toBytes Word.toHex Word.ofHex ∧
    (∀ digits : String, Hex.withoutMark ("0x" ++ digits) = Bytes.ofText digits) ∧
    ∀ text : String, (∀ digits, text ≠ "0x" ++ digits) →
      Hex.withoutMark text = Bytes.ofText text := by
  refine ⟨Hex.grammar (by norm_num) (fun v => rfl) (fun v => rfl) fun text => rfl,
    Hex.grammar (by norm_num) (fun v => rfl) (fun v => rfl) fun text => rfl,
    Hex.withoutMark_marked, fun text h => Hex.withoutMark_unmarked h⟩

theorem mixed_case_is_printed_in_lower_case :
    Address.ofHex "0x00000000000000000000000000000000000000aB" = .ok 0xab ∧
    Bytes.ofText (Address.toHex 0xab) = Bytes.ofText "0x" ++
      (Hex.withoutMark "0x00000000000000000000000000000000000000aB").map Hex.lowered ∧
    (∀ digits, "0XaB" ≠ "0x" ++ digits) ∧ Hex.withoutMark "0XaB" = Bytes.ofText "0XaB" := by
  obtain ⟨haddress, -, -, hunmarked⟩ := hex_text_is_read_by_its_grammar
  have hread : Address.ofHex "0x00000000000000000000000000000000000000aB" = .ok 0xab := by
    decide +kernel
  have hupper : ∀ digits, "0XaB" ≠ "0x" ++ digits := by
    intro digits heq
    have hbytes := congrArg (fun text => (Bytes.ofText text)[1]?) heq
    rw [Bytes.ofText_append] at hbytes
    have hx : (Bytes.ofText "0x" ++ Bytes.ofText digits)[1]? = some 0x78 := rfl
    have hX : (Bytes.ofText "0XaB")[1]? = some 0x58 := rfl
    rw [hx, hX] at hbytes
    cases hbytes
  exact ⟨hread, haddress.lowers _ _ hread, hupper, hunmarked _ hupper⟩

-- only one mark is taken off, and the byte count comes before the digits
example : Address.ofHex "0x0x" = .error (.hex (.invalidByte 120 1)) := by decide +kernel

example : Word.ofHex "0xzzz" = .error (.hex .oddLength) := by decide +kernel

end ContractVm
