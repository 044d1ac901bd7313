import Mai.BaseSlice

/-!
# Number literals

`Lexer::MatchNumber` (`lang/lexer.cc`) collects the characters of a literal, parses the magnitude
with the parser of `base/slice.cc` for its base and signedness and applies the sign and the range of
the suffix to the result.
-/
namespace Mai.LangNumberLiteral
open List

open BaseSlice (parseI64 parseU64 parseO64)

inductive Kind
  | i8 | u8 | i16 | u16 | i32 | u32 | i64 | u64 | int | uint | f32 | f64
  deriving DecidableEq

namespace Kind

def isFloat : Kind → Bool
  | f32 | f64 => true
  | _ => false

def signed : Kind → Bool
  | i8 | i16 | i32 | i64 | int => true
  | _ => false

def bits : Kind → ℕ
  | i8 | u8 => 8
  | i16 | u16 => 16
  | i32 | u32 | int | uint | f32 => 32
  | i64 | u64 | f64 => 64

def overflowOf : Kind → String
  | i8 | u8 => "i8"
  | i16 => "i16[-32768, 32767]"
  | u16 => "u16"
  | i32 | int => "i32"
  | _ => "u32"

end Kind

inductive Token
  | error (message : String)
  | integral (kind : Kind) (value : ℤ)
  | floating (kind : Kind) (negative : Bool) (text : List Char)
  deriving DecidableEq

def kTermChars : List Char :=
  ['+', '-', '*', '/', '(', ')', '[', ']', '.', ';', ':', '%', '#', '!', '^', '~', '&', '<', '>',
    '=', ',', '?', '|', '$', ' ', '\x00', '\x09', '\x0a', '\x0d', '\x22', '\x27', '\x5c', '\x60',
    '\x7b', '\x7d']

def isTermChar (ch : Char) : Bool := ch ∈ kTermChars

def isDigit (ch : Char) : Bool := '0' ≤ ch ∧ ch ≤ '9'

def isHexLetter (ch : Char) : Bool := 'a' ≤ ch ∧ ch ≤ 'f' ∨ 'A' ≤ ch ∧ ch ≤ 'F'

def peek : List Char → Char
  | [] => '\x00'
  | ch :: _ => ch

lemma peek_cons (ch : Char) (input : List Char) : peek (ch :: input) = ch := rfl

def unexpected (message : String) (ch : Char) : String := message ++ String.singleton ch

def matchSuffix (ch : Char) (input : List Char) : Except String (Kind × List Char) :=
  let bad (width : String) :=
    Except.error (unexpected "Incorrect number literal suffix: " ch ++ width)
  if peek input = '8' then
    if isTermChar (peek input.tail) then .ok (if ch = 'i' then .i8 else .u8, input.tail)
    else bad "8"
  else if peek input = '1' then
    if peek input.tail = '6' ∧
      isTermChar (peek input.tail.tail) then .ok (if ch = 'i' then .i16 else .u16, input.tail.tail)
    else bad "16"
  else if peek input = '3' then
    if peek input.tail = '2' ∧
      isTermChar (peek input.tail.tail) then .ok (if ch = 'i' then .i32 else .u32, input.tail.tail)
    else bad "32"
  else if peek input = '6' then
    if peek input.tail = '4' ∧
      isTermChar (peek input.tail.tail) then .ok (if ch = 'i' then .i64 else .u64, input.tail.tail)
    else bad "64"
  else .ok (if ch = 'i' then .int else .uint, input)

/-- The loop of `MatchNumber`; each of its turns consumes a character, so the length of the input is
fuel enough. -/
def scan (base : ℕ) : ℕ → Kind → Bool → List Char → List Char → Except String (Kind × List Char)
  | 0, _, _, _, _ => .error ""
  | fuel + 1, type, hasE, buf, input =>
    let ch := peek input
    if isDigit ch then
      if base = 8 ∧ '8' ≤ ch then .error (unexpected "Unexpected number character: " ch)
      else scan base fuel type hasE (buf ++ [ch]) input.tail
    else if !type.isFloat && isHexLetter ch then
      if base ≠ 16 then .error (unexpected "Unexpected number character: " ch)
      else scan base fuel type hasE (buf ++ [ch]) input.tail
    else if ch = 'e' then
      if hasE then .error "Duplicated exp e in floating literal"
      else if base ≠ 10 then .error (unexpected "Unexpected integral character: " ch)
      else scan base fuel type true (buf ++ [ch]) input.tail
    else if ch = '.' then
      if type.isFloat then .error "Duplicated dot . in floating literal"
      else if base ≠ 10 then .error (unexpected "Unexpected integral character: " ch)
      else scan base fuel .f32 hasE (buf ++ [ch]) input.tail
    else if ch = 'f' then
      if base ≠ 10 then .error (unexpected "Unexpected integral character: " ch)
      else if !isTermChar (peek input.tail)
        then .error (unexpected "Incorrect number literal suffix: f" (peek input.tail))
      else scan base fuel .f32 hasE buf input.tail
    else if ch = 'd' then
      if !isTermChar (peek input.tail)
        then .error (unexpected "Incorrect number literal suffix: d" (peek input.tail))
      else scan base fuel .f64 hasE buf input.tail
    else if ch = 'i' ∨ ch = 'u' then
      if type.isFloat then .error "Incorrect integral suffix in floating number"
      else match matchSuffix ch input.tail with
        | .error message => .error message
        | .ok (type, input) => scan base fuel type hasE buf input
    else if isTermChar ch then .ok (type, buf)
    else .error (unexpected "Unexpected number character: " ch)

def hexDigit (ch : Char) : Option ℕ :=
  if '0' ≤ ch ∧ ch ≤ '9' then some (ch.toNat - '0'.toNat)
  else if 'a' ≤ ch ∧ ch ≤ 'f' then some (ch.toNat - 'a'.toNat + 10)
  else if 'A' ≤ ch ∧ ch ≤ 'F' then some (ch.toNat - 'A'.toNat + 10)
  else none

def parseH64Loop : ℕ → List Char → Except ℤ ℤ
  | l, [] => .ok l
  | l, ch :: s =>
    match hexDigit ch with
    | some e => parseH64Loop ((l <<< 4) % 2 ^ 64 ||| e) s
    | none => .error (-1)

def parseH64 (s : List Char) : Except ℤ ℤ :=
  if s.length = 0 then .error (-1) else if 16 < s.length then .error 1 else parseH64Loop 0 s

def bytes (s : List Char) : List UInt8 := s.map Char.toUInt8

/-- What the parser for the base and the signedness returns. -/
def parse (base : ℕ) (type : Kind) (buf : List Char) : Option (Except ℤ ℤ) :=
  if base = 8 then some (parseO64 (bytes buf.tail))
  else if base = 10 then
    if type.signed then parseI64 (bytes buf) else some (parseU64 (bytes buf))
  else some (parseH64 (buf.drop 2))

def i64 (x : ℤ) : ℤ := (x + 2 ^ 63) % 2 ^ 64 - 2 ^ 63

def Kind.least (k : Kind) : ℤ := if k.signed then -2 ^ (k.bits - 1) else 0

def Kind.greatest (k : Kind) : ℤ := if k.signed then 2 ^ (k.bits - 1) - 1 else 2 ^ k.bits - 1

def signedValue (sign : ℤ) (k : Kind) (val : ℤ) : ℤ :=
  if k.signed then (if sign < 0 then i64 (-i64 val) else i64 val)
  else if sign < 0 then -val % 2 ^ 64 else val

def checked (buf : List Char) (k : Kind) (test : ℤ) : Token :=
  if k.bits < 64 ∧ (test < k.least ∨ k.greatest < test) then
    .error ("Integral number: " ++ String.ofList buf ++ " overflow of " ++ k.overflowOf)
  else .integral k test

def convert (sign : ℤ) (base : ℕ) (type : Kind) (buf : List Char) : Option Token :=
  if type.isFloat then some (.floating type (sign < 0) buf)
  else
    match parse base type buf with
    | none => none
    | some (.error e) =>
      if 0 < e then some (.error ("Integral number: " ++ String.ofList buf ++ " overflow"))
      else if base = 10 ∧ type.signed then none
      else some (checked buf type (signedValue sign type 0))
    | some (.ok val) => some (checked buf type (signedValue sign type val))

def matchBase (input : List Char) : ℕ × List Char × List Char :=
  if peek input = '0' then
    if peek input.tail = 'x' ∨ peek input.tail = 'X' then (16, ['0', 'x'], input.tail.tail)
    else (if isDigit (peek input.tail) then 8 else 10, ['0'], input.tail)
  else (10, [], input)

def matchNumber (sign : ℤ) (input : List Char) : Option Token :=
  let (sign, input) :=
    if sign = 0 then
      if peek input = '-' then (-1, input.tail) else if peek input = '+' then (1, input.tail)
      else (1, input)
    else (sign, input)
  let (base, buf, input) := matchBase input
  match scan base (input.length + 1) .int false buf input with
  | .error message => some (.error message)
  | .ok (type, buf) => convert sign base type buf

inductive Form
  | dec
  | oct
  | hex (upper : Bool)
  deriving DecidableEq

def Form.base : Form → ℕ
  | dec => 10
  | oct => 8
  | hex _ => 16

def Form.text : Form → List Char
  | dec => []
  | oct => ['0']
  | hex upper => ['0', if upper then 'X' else 'x']

def digit (ch : Char) : ℕ := (hexDigit ch).getD 0

def magnitude (base : ℕ) (digits : List Char) : ℕ :=
  digits.foldl (fun l ch => l * base + digit ch) 0

def suffixText : Option Kind → List Char
  | some .i8 => ['i', '8']
  | some .u8 => ['u', '8']
  | some .i16 => ['i', '1', '6']
  | some .u16 => ['u', '1', '6']
  | some .i32 => ['i', '3', '2']
  | some .u32 => ['u', '3', '2']
  | some .i64 => ['i', '6', '4']
  | some .u64 => ['u', '6', '4']
  | some .int => ['i']
  | some .uint => ['u']
  | _ => []

structure Literal where
  negative : Option Bool
  form : Form
  digits : List Char
  suffix : Option Kind
  nonempty : digits ≠ []
  valid : ∀ ch ∈ digits, (isDigit ch ∨ isHexLetter ch) ∧ digit ch < form.base
  first : form = .dec → digits = ['0'] ∨ peek digits ≠ '0'
  integral : ∀ k ∈ suffix, k.isFloat = false

namespace Literal

def signText (l : Literal) : List Char :=
  match l.negative with
  | some true => ['-']
  | some false => ['+']
  | none => []

def text (l : Literal) : List Char := l.signText ++ l.form.text ++ l.digits ++ suffixText l.suffix

def kind (l : Literal) : Kind := l.suffix.getD .int

def magnitude (l : Literal) : ℕ := LangNumberLiteral.magnitude l.form.base l.digits

def value (l : Literal) : ℤ := if l.negative = some true then -l.magnitude else l.magnitude

end Literal

def Terminated (rest : List Char) : Prop := isTermChar (peek rest) ∧ peek rest ≠ '.'

def InRange (k : Kind) (x : ℤ) : Prop := k.least ≤ x ∧ x ≤ k.greatest

instance decidableInRange (k : Kind) (x : ℤ) : Decidable (InRange k x) := instDecidableAnd

def Exact (l : Literal) (rest : List Char) : Prop :=
  (InRange l.kind l.value → matchNumber 0 (l.text ++ rest) = some (.integral l.kind l.value)) ∧
    (¬InRange l.kind l.value → ∃ message, matchNumber 0 (l.text ++ rest) = some (.error message))

def reduced (k : Kind) (x : ℤ) : ℤ := if k.signed then i64 x else x % 2 ^ 64

def Rejected (l : Literal) : Prop :=
  match l.form with
  | .hex _ => 16 < l.digits.length
  | .oct => 22 < l.digits.length
  | .dec =>
    if l.kind.signed then 19 < l.digits.length ∨ l.magnitude = 2 ^ 63 ∨ l.magnitude = 2 ^ 63 + 1
    else 20 < l.digits.length ∨ 2 ^ 64 ≤ l.magnitude / 10 * 10 % 2 ^ 64 + l.magnitude % 10

instance decidableRejected (l : Literal) : Decidable (Rejected l) := by
  unfold Rejected
  split <;> infer_instance

def Representable (l : Literal) : Prop :=
  (Rejected l → ¬InRange l.kind l.value) ∧
    (¬Rejected l → InRange l.kind l.value ∨ ¬InRange l.kind (reduced l.kind l.value))

section Parsers

variable {base : ℕ} {s : List Char}

def Digits (base : ℕ) (s : List Char) : Prop :=
  ∀ ch ∈ s, 48 ≤ ch.toNat ∧ ch.toNat < 48 + base ∧ digit ch = ch.toNat - 48

lemma toNat_byte (h : Digits base s) (hbase : base ≤ 10) :
    ∀ ch ∈ s, ch.toUInt8.toNat = ch.toNat := by
  intro ch hch
  have := h ch hch
  exact Nat.mod_eq_of_lt (show ch.toNat < 2 ^ 8 by omega)

lemma digits_bytes (hne : s ≠ []) (h : Digits base s) (hbase : base ≤ 10) :
    BaseSlice.Digits base (bytes s) := by
  refine ⟨by simpa [bytes] using hne, fun c hc => ?_⟩
  obtain ⟨ch, hch, rfl⟩ := List.mem_map.mp hc
  rw [toNat_byte h hbase ch hch]
  exact ⟨(h ch hch).1, (h ch hch).2.1⟩

lemma value_bytes (h : Digits base s) (hbase : base ≤ 10) :
    BaseSlice.value base (bytes s) = magnitude base s := by
  rw [BaseSlice.value, BaseSlice.valueFrom, bytes, foldl_map, magnitude]
  refine foldl_ext _ _ _ fun l ch hch => ?_
  rw [toNat_byte h hbase ch hch, (h ch hch).2.2]

lemma magnitude_lt (h : ∀ ch ∈ s, digit ch < base) : magnitude base s < base ^ s.length := by
  induction s using List.reverseRecOn with
  | nil => simp [magnitude]
  | append_singleton s ch ih =>
    have hs := ih fun c hc => h c (mem_append_left _ hc)
    have hch := h ch (by simp)
    have happend : magnitude base (s ++ [ch]) = magnitude base s * base + digit ch := by
      simp [magnitude, foldl_append]
    rw [happend, length_append, length_singleton, pow_succ]
    calc magnitude base s * base + digit ch
        < (magnitude base s + 1) * base := by rw [add_mul, one_mul]; omega
      _ ≤ base ^ s.length * base := Nat.mul_le_mul_right _ hs

/-- `BaseSlice.parsed_eq` for words of 64 bits and the digits of a literal. -/
lemma parsed_digits (hne : s ≠ []) (h : Digits base s) (L : ℕ) {radix limit : BitVec 64} {n : ℕ}
    (conv : BitVec 64 → ℤ) (hradix : radix.toNat = base) (hbase : base ≤ 10) (hL : L < 2 ^ 64)
    (hlimit : limit = BitVec.ofNat 64 L) (hn : base ^ (n - 1) ≤ L + 1) :
    (if (bytes s).length = 0 then .error (-1) else if n < (bytes s).length then .error 1
      else (BaseSlice.parseLoop radix limit 0 0 (bytes s)).map conv : Except ℤ ℤ) =
    if n < s.length ∨ ((L : ℤ) - (magnitude base s / base * base : ℕ)) % 2 ^ 64
        < (magnitude base s % base : ℕ)
      then .error 1 else .ok (conv (BitVec.ofNat 64 (magnitude base s))) := by
  subst hradix
  rw [BaseSlice.parsed_eq conv hL (by rw [hlimit, add_zero]) hn (digits_bytes hne h hbase),
    value_bytes h hbase, bytes, length_map]

lemma parseU64_spec (hne : s ≠ []) (h : Digits 10 s) :
    parseU64 (bytes s) =
      if 20 < s.length ∨ 2 ^ 64 ≤ magnitude 10 s / 10 * 10 % 2 ^ 64 + magnitude 10 s % 10
        then .error 1
      else .ok (magnitude 10 s % 2 ^ 64 : ℕ) := by
  refine (parsed_digits hne h (2 ^ 64 - 1) (fun l => (l.toNat : ℤ)) (by rfl) le_rfl (by norm_num)
    (by rfl) (by norm_num)).trans (if_congr (or_congr_right ?_) rfl rfl)
  omega

lemma parseO64_spec (hne : s ≠ []) (h : Digits 8 s) :
    parseO64 (bytes s) = if 22 < s.length then .error 1 else .ok (magnitude 8 s % 2 ^ 64 : ℕ) := by
  refine (parsed_digits hne h (2 ^ 64 - 1) (fun l => (l.toNat : ℤ)) (by rfl) (by decide)
    (by norm_num) (by rfl) (by norm_num)).trans (if_congr (or_iff_left ?_) rfl rfl)
  omega

lemma parseI64_spec (hne : s ≠ []) (h : Digits 10 s) :
    parseI64 (bytes s) = some (
      if 19 < s.length ∨ magnitude 10 s = 2 ^ 63 ∨ magnitude 10 s = 2 ^ 63 + 1 then .error 1
      else .ok (i64 (magnitude 10 s))) := by
  refine (BaseSlice.parseSigned_eq _ _ .none (digits_bytes hne h le_rfl)).trans (congrArg some ?_)
  refine (parsed_digits hne h (2 ^ 63 - 1) (fun l => l.toInt) (by rfl) le_rfl (by norm_num) (by rfl)
    (by norm_num)).trans (if_congr ?_ rfl (congrArg _ ?_))
  · -- numbers of 19 digits pass the limit by less than a word
    have hlt : ¬19 < s.length → magnitude 10 s < 10 ^ 19 := fun hn =>
      (magnitude_lt fun ch hch => by have := h ch hch; omega).trans_le
        (Nat.pow_le_pow_right (by omega) (not_lt.mp hn))
    omega
  · rw [BitVec.toInt_ofNat', Int.bmod, i64]
    omega

lemma parseH64Loop_spec {l : ℕ} (h : ∀ ch ∈ s, ∃ e, hexDigit ch = some e ∧ e < 16)
    (hl : (l + 1) * 16 ^ s.length ≤ 2 ^ 64) :
    parseH64Loop l s = .ok (s.foldl (fun l ch => l * 16 + digit ch) l : ℕ) := by
  induction s generalizing l with
  | nil => rfl
  | cons ch s ih =>
    obtain ⟨e, he, hlt⟩ := h ch mem_cons_self
    have hdigit : digit ch = e := by rw [digit, he, Option.getD_some]
    rw [length_cons, pow_succ] at hl
    have hpos : 0 < 16 ^ s.length := by positivity
    have hstep : (l + 1) * 16 ≤ 2 ^ 64 := by
      refine le_trans ?_ hl
      rw [mul_comm (16 ^ _), ← mul_assoc]
      exact Nat.le_mul_of_pos_right _ hpos
    have hnext : (l <<< 4) % 2 ^ 64 ||| e = l * 16 + e := by
      rw [Nat.shiftLeft_eq, Nat.mod_eq_of_lt (by omega), ← Nat.shiftLeft_eq,
        ← Nat.shiftLeft_add_eq_or_of_lt (by omega), Nat.shiftLeft_eq]
    rw [parseH64Loop, he, foldl_cons, hdigit]
    dsimp only
    rw [hnext]
    refine ih (fun c hc => h c (mem_cons_of_mem _ hc)) (le_trans ?_ hl)
    calc (l * 16 + e + 1) * 16 ^ s.length ≤ ((l + 1) * 16) * 16 ^ s.length :=
      Nat.mul_le_mul_right _ (by omega)
      _ = (l + 1) * (16 ^ s.length * 16) := by ring

lemma parseH64_spec (hne : s ≠ []) (h : ∀ ch ∈ s, ∃ e, hexDigit ch = some e ∧ e < 16) :
    parseH64 s = if 16 < s.length then .error 1 else .ok (magnitude 16 s % 2 ^ 64 : ℕ) := by
  rw [parseH64, if_neg (by simpa using hne)]
  by_cases hn : 16 < s.length
  · rw [if_pos hn, if_pos hn]
  have hpow : 16 ^ s.length ≤ 2 ^ 64 :=
    le_trans (Nat.pow_le_pow_right (by omega) (not_lt.mp hn)) (by norm_num)
  have hlt : magnitude 16 s < 16 ^ s.length := magnitude_lt fun ch hch => by
    obtain ⟨e, he, hlt⟩ := h ch hch
    rwa [digit, he, Option.getD_some]
  rw [if_neg hn, if_neg hn, parseH64Loop_spec h (by simpa using hpow), Nat.mod_eq_of_lt (by omega)]
  rfl

end Parsers

section Scanning

variable {base fuel : ℕ} {l : Literal} {rest buf input : List Char} {ch : Char}

lemma char_le {a b : Char} : a ≤ b ↔ a.toNat ≤ b.toNat := Char.le_def.trans UInt32.le_iff_toNat_le

lemma digit_cases (h : isDigit ch ∨ isHexLetter ch) :
    (isDigit ch = true ∧ hexDigit ch = some (ch.toNat - 48) ∧ 48 ≤ ch.toNat ∧ ch.toNat ≤ 57) ∨
      (isDigit ch = false ∧ isHexLetter ch = true ∧ ∃ e, hexDigit ch = some e ∧ 10 ≤ e ∧
        e < 16) := by
  have h0 : '0'.toNat = 48 := rfl
  have h9 : '9'.toNat = 57 := rfl
  have ha : 'a'.toNat = 97 := rfl
  have hf : 'f'.toNat = 102 := rfl
  have hA : 'A'.toNat = 65 := rfl
  have hF : 'F'.toNat = 70 := rfl
  simp only [isDigit, isHexLetter, hexDigit, char_le, decide_eq_true_eq, decide_eq_false_iff_not,
    h0, h9, ha, hf, hA, hF] at h ⊢
  split_ifs with h1 h2 h3
  · exact .inl ⟨h1, rfl, h1⟩
  · exact .inr ⟨h1, by omega, _, rfl, by omega, by omega⟩
  · exact .inr ⟨h1, by omega, _, rfl, by omega, by omega⟩
  · omega

lemma digits_dec (h : ∀ ch ∈ input, (isDigit ch ∨ isHexLetter ch) ∧ digit ch < base)
    (hbase : base ≤ 10) : Digits base input := by
  intro ch hch
  obtain ⟨hd, hlt⟩ := h ch hch
  rcases digit_cases hd with ⟨-, he, h0, h9⟩ | ⟨-, -, e, he, h10, -⟩
  · rw [digit, he, Option.getD_some] at hlt ⊢
    exact ⟨h0, by omega, rfl⟩
  · rw [digit, he, Option.getD_some] at hlt
    omega

lemma scan_digit (h : isDigit ch ∨ isHexLetter ch) (hch : digit ch < base)
    (hbase : base = 8 ∨ base = 10 ∨ base = 16) :
    scan base (fuel + 1) .int false buf (ch :: input) =
      scan base fuel .int false (buf ++ [ch]) input := by
  have h8 : '8'.toNat = 56 := rfl
  rcases digit_cases h with ⟨hd, he, h0, h9⟩ | ⟨hd, hh, e, he, h10, h16⟩
  · rw [digit, he, Option.getD_some] at hch
    have hoct : ¬(base = 8 ∧ '8' ≤ ch) := by
      rw [char_le]
      omega
    rw [scan, peek_cons, if_pos hd, if_neg hoct, tail_cons]
  · rw [digit, he, Option.getD_some] at hch
    have hhex : base = 16 := by omega
    simp [scan, peek_cons, hd, hh, hhex, Kind.isFloat]

lemma scan_digits {digits : List Char}
    (h : ∀ ch ∈ digits, (isDigit ch ∨ isHexLetter ch) ∧ digit ch < base)
    (hbase : base = 8 ∨ base = 10 ∨ base = 16) :
    scan base (fuel + digits.length) .int false buf (digits ++ input) =
      scan base fuel .int false (buf ++ digits) input := by
  induction digits generalizing buf with
  | nil => simp
  | cons ch digits ih =>
    obtain ⟨hd, hlt⟩ := h ch mem_cons_self
    rw [length_cons, ← add_assoc, cons_append, scan_digit hd hlt hbase,
      ih fun c hc => h c (mem_cons_of_mem _ hc)]
    simp

lemma scan_end {type : Kind} (h : Terminated rest) :
    scan base (fuel + 1) type false buf rest = .ok (type, buf) := by
  have hall : ∀ c ∈ kTermChars, c ≠ '.' → isDigit c = false ∧ isHexLetter c = false ∧ c ≠ 'e' ∧
      c ≠ 'f' ∧ c ≠ 'd' ∧ c ≠ 'i' ∧
      c ≠ 'u' := by simp [kTermChars, isDigit, isHexLetter]
  obtain ⟨hterm, hdot⟩ := h
  obtain ⟨hd, hh, he, hf, hdd, hi, hu⟩ := hall (peek rest) (by simpa [isTermChar] using hterm) hdot
  simp [scan, hd, hh, he, hf, hdd, hi, hu, hdot, hterm]

lemma scan_suffix {suffix : Option Kind} (hsuffix : ∀ k ∈ suffix, k.isFloat = false)
    (h : Terminated rest) :
    scan base (fuel + (suffixText suffix).length + 1) .int false buf (suffixText suffix ++ rest) =
      .ok (suffix.getD .int, buf) := by
  have hterm := h.1
  have hall : ∀ c ∈ kTermChars, c ≠ '8' ∧ c ≠ '1' ∧ c ≠ '3' ∧ c ≠ '6' := by simp [kTermChars]
  obtain ⟨h8, h1, h3, h6⟩ := hall (peek rest) (by simpa [isTermChar] using hterm)
  have hi : isDigit 'i' = false ∧ isHexLetter 'i' = false := by decide
  have hu : isDigit 'u' = false ∧ isHexLetter 'u' = false := by decide
  cases suffix with
  | none => exact scan_end h
  | some k =>
    have hk := hsuffix k rfl
    cases k with
    | f32 => cases hk
    | f64 => cases hk
    | _ =>
      rw [scan]
      simp [suffixText, peek_cons, hi, hu, matchSuffix, hterm, Kind.isFloat, scan_end h, h8, h1, h3,
        h6]

def Literal.collected (l : Literal) : List Char :=
  match l.form with
  | .dec => l.digits
  | .oct => '0' :: l.digits
  | .hex _ => '0' :: 'x' :: l.digits

lemma Literal.base_cases (l : Literal) : l.form.base = 8 ∨ l.form.base = 10 ∨ l.form.base = 16 := by
  cases l.form <;> simp [Form.base]

lemma Literal.peek_digit (l : Literal) (input : List Char) :
    ∃ ch digits, l.digits = ch :: digits ∧ peek (l.digits ++ input) = ch ∧
      (isDigit ch ∨ isHexLetter ch) ∧ digit ch < l.form.base := by
  cases hd : l.digits with
  | nil => exact absurd hd l.nonempty
  | cons ch digits => exact ⟨ch, digits, rfl, rfl, l.valid ch (hd ▸ mem_cons_self)⟩

lemma scan_literal (h : Terminated rest) {buf : List Char} :
    scan l.form.base ((l.digits ++ (suffixText l.suffix ++ rest)).length + 1) .int false buf
      (l.digits ++ (suffixText l.suffix ++ rest)) = .ok (l.kind, buf ++ l.digits) := by
  have hlength : (l.digits ++ (suffixText l.suffix ++ rest)).length + 1 =
      rest.length + (suffixText l.suffix).length + 1 + l.digits.length := by
    simp only [length_append]
    omega
  rw [hlength, scan_digits l.valid l.base_cases, scan_suffix l.integral h]
  rfl

lemma ne_of_digit (h : isDigit ch ∨ isHexLetter ch) :
    ch ≠ '-' ∧ ch ≠ '+' ∧ ch ≠ 'x' ∧ ch ≠ 'X' := by
  refine ⟨?_, ?_, ?_, ?_⟩ <;> rintro rfl <;> revert h <;> decide

lemma matchBase_dec (hform : l.form = .dec) (h : Terminated rest) :
    ∃ buf input, matchBase (l.digits ++ (suffixText l.suffix ++ rest)) = (10, buf, input) ∧
      scan 10 (input.length + 1) .int false buf input = .ok (l.kind, l.digits) := by
  have hbase : l.form.base = 10 := by rw [hform]; rfl
  obtain ⟨ch, digits, hd, hpeek, hch, -⟩ := l.peek_digit (suffixText l.suffix ++ rest)
  rcases l.first hform with hzero | hfirst
  · refine ⟨['0'], suffixText l.suffix ++ rest, ?_, ?_⟩
    · have hnext : peek (suffixText l.suffix ++ rest) ≠ 'x' ∧ peek (suffixText l.suffix ++ rest) ≠
          'X' ∧
          isDigit (peek (suffixText l.suffix ++ rest)) = false := by
        have hall : ∀ c ∈ kTermChars, c ≠ 'x' ∧ c ≠ 'X' ∧ isDigit c = false := by
          simp [kTermChars, isDigit]
        have hrest := hall (peek rest) (by simpa [isTermChar] using h.1)
        rcases hs : l.suffix with _ | k
        · exact hrest
        · have hk := l.integral k hs
          cases k with
          | f32 => cases hk
          | f64 => cases hk
          | _ => simp [suffixText, peek_cons, isDigit]
      rw [hzero]
      simp [matchBase, peek_cons, hnext]
    · rw [hzero, length_append, add_comm (suffixText l.suffix).length]
      exact scan_suffix l.integral h
  · refine ⟨[], l.digits ++ (suffixText l.suffix ++ rest), ?_, ?_⟩
    · rw [hd, peek_cons] at hfirst
      rw [matchBase, hpeek, if_neg hfirst]
    · rw [← hbase]
      exact scan_literal h

lemma matchBase_text (h : Terminated rest) :
    ∃ buf input, matchBase (l.form.text ++ (l.digits ++ (suffixText l.suffix ++ rest))) =
      (l.form.base, buf, input) ∧
      scan l.form.base (input.length + 1) .int false buf input = .ok (l.kind, l.collected) := by
  have hscan := @scan_literal l rest h
  obtain ⟨ch, digits, hd, hpeek, hch, hlt⟩ := l.peek_digit (suffixText l.suffix ++ rest)
  obtain ⟨-, -, hx, hX⟩ := ne_of_digit hch
  cases hform : l.form with
  | dec => simpa only [hform, Form.text, Literal.collected, nil_append,
      Form.base] using matchBase_dec hform h
  | oct =>
    rw [hform] at hlt hscan
    have hdigit : isDigit ch = true := by
      rcases digit_cases hch with ⟨hd, -⟩ | ⟨-, -, e, he, h10, -⟩
      · exact hd
      · rw [digit, he, Option.getD_some, Form.base] at hlt
        omega
    refine ⟨['0'], l.digits ++ (suffixText l.suffix ++ rest), ?_, ?_⟩
    · simp only [Form.text, singleton_append, matchBase, peek_cons, tail_cons, hpeek, hx, hX,
        or_self, if_false, if_true, hdigit]
      rfl
    · rw [hscan, Literal.collected, hform]
      rfl
  | hex upper =>
    rw [hform] at hscan
    refine ⟨['0', 'x'], l.digits ++ (suffixText l.suffix ++ rest), ?_, ?_⟩
    · cases upper <;> rfl
    · rw [hscan, Literal.collected, hform]
      rfl

lemma matchNumber_text (h : Terminated rest) :
    matchNumber 0 (l.text ++ rest) =
      convert (if l.negative = some true then -1 else 1) l.form.base l.kind l.collected := by
  obtain ⟨buf, input, hbase, hscan⟩ := @matchBase_text l rest h
  obtain ⟨ch, digits, hd, hpeek, hch, -⟩ := l.peek_digit (suffixText l.suffix ++ rest)
  have hsign : peek (l.form.text ++ (l.digits ++ (suffixText l.suffix ++ rest))) ≠ '-' ∧
      peek (l.form.text ++ (l.digits ++ (suffixText l.suffix ++ rest))) ≠ '+' := by
    obtain ⟨hm, hp, -, -⟩ := ne_of_digit hch
    cases l.form with
    | dec => exact ⟨by rw [Form.text, nil_append, hpeek]; exact hm,
        by rw [Form.text, nil_append, hpeek]; exact hp⟩
    | _ => simp [Form.text, peek_cons]
  have htext : l.text ++ rest =
      l.signText ++ (l.form.text ++ (l.digits ++ (suffixText l.suffix ++ rest))) := by
    simp [Literal.text]
  rw [htext, Literal.signText]
  rcases hneg : l.negative with _ | _ | _
  all_goals simp [matchNumber, peek_cons, hsign, hbase, hscan]

end Scanning

section Main

variable {l : Literal} {rest : List Char} {k : Kind} {x : ℤ}

lemma Literal.kind_integral (l : Literal) : l.kind.isFloat = false := by
  rw [Literal.kind]
  rcases hs : l.suffix with _ | k
  · rfl
  · exact l.integral k hs

section Parse

variable (k : Kind) (buf : List Char)

lemma parse_oct : parse 8 k ('0' :: buf) = some (parseO64 (bytes buf)) := rfl

lemma parse_dec :
    parse 10 k buf = if k.signed then parseI64 (bytes buf) else some (parseU64 (bytes buf)) := rfl

lemma parse_hex : parse 16 k ('0' :: 'x' :: buf) = some (parseH64 buf) := rfl

end Parse

/-- A literal that is not rejected is read as its magnitude modulo 2^64, as a signed number for a
decimal literal of a signed kind. -/
lemma parse_collected (l : Literal) :
    (Rejected l → parse l.form.base l.kind l.collected = some (.error 1)) ∧
    (¬Rejected l → ∃ val, parse l.form.base l.kind l.collected = some (.ok val) ∧
      (val = l.magnitude % 2 ^ 64 ∨ l.kind.signed ∧ val = i64 l.magnitude)) := by
  have hne := l.nonempty
  have hvalid := l.valid
  unfold Rejected Literal.magnitude Literal.collected
  cases hform : l.form with
  | dec =>
    rw [hform] at hvalid
    have hdigits : Digits 10 l.digits := digits_dec hvalid le_rfl
    dsimp only [Form.base]
    rw [parse_dec]
    split_ifs with hsigned
    · rw [parseI64_spec hne hdigits]
      exact ⟨fun h => by rw [if_pos h], fun h => ⟨_, by rw [if_neg h], .inr ⟨hsigned, rfl⟩⟩⟩
    · rw [parseU64_spec hne hdigits]
      exact ⟨fun h => by rw [if_pos h], fun h => ⟨_, by rw [if_neg h], .inl (by norm_num)⟩⟩
  | oct =>
    rw [hform] at hvalid
    dsimp only [Form.base]
    rw [parse_oct, parseO64_spec hne (digits_dec hvalid (by decide))]
    exact ⟨fun h => by rw [if_pos h], fun h => ⟨_, by rw [if_neg h], .inl (by norm_num)⟩⟩
  | hex upper =>
    have hhex (ch : Char) (hch : ch ∈ l.digits) : ∃ e, hexDigit ch = some e ∧ e < 16 := by
      rcases digit_cases (hvalid ch hch).1 with ⟨-, he, h0, h9⟩ | ⟨-, -, e, he, -, h16⟩
      · exact ⟨_, he, by omega⟩
      · exact ⟨e, he, h16⟩
    dsimp only [Form.base]
    rw [parse_hex, parseH64_spec hne hhex]
    exact ⟨fun h => by rw [if_pos h], fun h => ⟨_, by rw [if_neg h], .inl (by norm_num)⟩⟩

lemma signedValue_eq {val : ℤ}
    (h : val = l.magnitude % 2 ^ 64 ∨ l.kind.signed ∧ val = i64 l.magnitude) :
    signedValue (if l.negative = some true then -1 else 1) l.kind val = reduced l.kind l.value := by
  unfold signedValue reduced Literal.value
  rw [i64] at h
  by_cases hsigned : l.kind.signed
  · by_cases hneg : l.negative = some true
    · simp only [hsigned, hneg, if_true, i64, true_and] at h ⊢
      split_ifs <;> omega
    · simp only [hsigned, hneg, if_true, if_false, i64, true_and] at h ⊢
      split_ifs <;> omega
  · by_cases hneg : l.negative = some true
    · simp only [hsigned, hneg, if_true, Bool.false_eq_true, if_false, false_and, or_false] at h ⊢
      split_ifs <;> omega
    · simp only [hsigned, hneg, Bool.false_eq_true, if_false, false_and, or_false] at h ⊢
      split_ifs <;> omega

lemma inRange_reduced (hk : ¬k.bits < 64) : InRange k (reduced k x) := by
  cases k <;> simp [Kind.bits] at hk <;> simp [InRange, reduced, Kind.least, Kind.greatest,
    Kind.signed, Kind.bits, i64] <;> omega

lemma reduced_of_inRange (h : InRange k x) : reduced k x = x := by
  cases k <;> simp [InRange, reduced, Kind.least, Kind.greatest, Kind.signed, Kind.bits, i64] at h ⊢
    <;> omega

lemma checked_of_inRange (buf : List Char) (h : InRange k x) : checked buf k x = .integral k x := by
  rw [checked, if_neg]
  rintro ⟨-, hlt | hlt⟩
  · exact absurd h.1 (not_le.mpr hlt)
  · exact absurd h.2 (not_le.mpr hlt)

lemma checked_of_not_inRange (buf : List Char) (h : ¬InRange k (reduced k x)) :
    ∃ message, checked buf k (reduced k x) = .error message := by
  rw [checked, if_pos]
  · exact ⟨_, rfl⟩
  · refine ⟨by_contra fun hk => h (inRange_reduced hk), ?_⟩
    by_contra hin
    push Not at hin
    exact h hin

/-- A literal gives the exact token, or an error when it is out of range, exactly when a literal its
parser rejects is out of range and one that is out of range stays so modulo 2^64. -/
theorem exact_iff_representable (l : Literal) (rest : List Char) (h : Terminated rest) :
    Exact l rest ↔ Representable l := by
  unfold Exact Representable
  rw [matchNumber_text h, convert, if_neg (by simp [l.kind_integral])]
  by_cases hrej : Rejected l
  · rw [(parse_collected l).1 hrej]
    simp [hrej]
  · obtain ⟨val, hparse, hval⟩ := (parse_collected l).2 hrej
    rw [hparse]
    dsimp only
    rw [signedValue_eq hval]
    by_cases hin : InRange l.kind l.value
    · simp [hin, hrej, reduced_of_inRange hin, checked_of_inRange]
    · by_cases hred : InRange l.kind (reduced l.kind l.value)
      · simp [hin, hrej, hred, checked_of_inRange]
      · obtain ⟨message, hm⟩ := checked_of_not_inRange l.collected hred
        simp [hin, hrej, hred, hm]

/-- The least value of `i8`. -/
theorem exact_iff_representable_least :
    Exact ⟨some true, .dec, ['1', '2', '8'], some .i8, by decide,
      by simp [isDigit, digit, hexDigit, Form.base], by decide +kernel, by decide⟩ [' '] := by
  refine (exact_iff_representable _ _ ⟨by decide, by decide⟩).mpr ⟨fun h => ?_, fun _ => .inl ?_⟩
  · exact absurd h (by decide +kernel)
  · decide +kernel

/-- The least value of `i64` is rejected, minus one is accepted as a `u64`, and a hexadecimal value
over 2^63 as an `i8`. -/
theorem literals_inexact :
    ¬Exact ⟨some true, .dec,
      ['9', '2', '2', '3', '3', '7', '2', '0', '3', '6', '8', '5', '4', '7', '7', '5', '8', '0',
        '8'], some .i64, by decide, by simp [isDigit, digit, hexDigit, Form.base],
      by decide +kernel, by decide⟩ [' '] ∧
    ¬Exact ⟨some true, .dec, ['1'], some .u64, by decide,
      by simp [isDigit, digit, hexDigit, Form.base], by decide +kernel, by decide⟩ [' '] ∧
    ¬Exact ⟨none, .hex false, List.replicate 16 'f', some .i8, by decide,
      by simp [isDigit, isHexLetter, digit, hexDigit, Form.base], by decide, by decide⟩ [' '] := by
  refine ⟨fun h => ?_, fun h => ?_, fun h => ?_⟩
  · exact absurd (h.1 (by decide +kernel)) (by decide +kernel)
  · obtain ⟨message, hm⟩ := h.2 (by decide +kernel)
    cases (show matchNumber 0 _ = some (.integral .u64 18446744073709551615) by
      decide +kernel).symm.trans hm
  · obtain ⟨message, hm⟩ := h.2 (by decide +kernel)
    cases (show matchNumber 0 _ = some (.integral .i8 (-1)) by decide +kernel).symm.trans hm

end Main

end Mai.LangNumberLiteral
