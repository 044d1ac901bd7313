import Mai.CoreKeys

/-! The names of files (`db/files.h`, `db/files.cc`). Positions in a name are 64-bit numbers that
wrap around, and the number in a name is read as a signed one. -/
namespace Mai.DbFiles
open CoreKeys List Option

inductive Kind
  | unknown
  | log
  | sstTable
  | xmtTable
  | s1tTable
  | manifest
  | current
  | lock
  deriving DecidableEq, Repr

def ascii (s : List Char) : Bytes := s.map fun c => UInt8.ofNat c.toNat

def kLockName : Bytes := ascii ['L', 'O', 'C', 'K']
def kCurrentName : Bytes := ascii ['C', 'U', 'R', 'R', 'E', 'N', 'T']
def kManifestPrefix : Bytes := ascii ['M', 'A', 'N', 'I', 'F', 'E', 'S', 'T', '-']
def kManifestPrefixLength : ℕ := 9
def kLogPostfix : Bytes := ascii ['.', 'l', 'o', 'g']
def kSstTablePostfix : Bytes := ascii ['.', 's', 's', 't']
def kXmtTablePostfix : Bytes := ascii ['.', 'x', 'm', 't']
def kS1tTablePostfix : Bytes := ascii ['.', 's', '1', 't']
def kPostfixLength : ℕ := 4

/-- `std::string::npos`, which is also the number of a name without one. -/
def npos : ℕ := 2 ^ 64 - 1

def matchesAt (name pattern : Bytes) (i : ℕ) : Bool := pattern.isPrefixOf (name.drop i)

def findFirst (name pattern : Bytes) : ℕ :=
  ((List.range (name.length + 1)).find? (matchesAt name pattern)).getD npos

def findLast (name pattern : Bytes) : ℕ :=
  ((List.range (name.length + 1)).reverse.find? (matchesAt name pattern)).getD npos

def lengthMinus (name : Bytes) (k : ℕ) : ℕ := (name.length + 2 ^ 64 - k) % 2 ^ 64

def isDigit (c : UInt8) : Bool := 48 ≤ c.toNat ∧ c.toNat ≤ 57

def isNumber (maybe : Bytes) : Bool := maybe ≠ [] ∧ maybe.all isDigit

def decimalValue (digits : Bytes) : ℕ := digits.foldl (fun n c => n * 10 + (c.toNat - 48)) 0

/-- `atoll` of a string of digits: a number that is too large gives the largest one. -/
def atoll (digits : Bytes) : ℕ := min (decimalValue digits) (2 ^ 63 - 1)

def parseStem (name : Bytes) (kind : Kind) : Kind × ℕ :=
  let buf := name.take (lengthMinus name kPostfixLength)
  if isNumber buf then (kind, atoll buf) else (.unknown, npos)

def parseName (name : Bytes) : Kind × ℕ :=
  if name = kLockName then (.lock, npos)
  else if name = kCurrentName then (.current, npos)
  else if findFirst name kManifestPrefix = 0 then
    let buf := name.drop kManifestPrefixLength
    if isNumber buf then (.manifest, atoll buf) else (.unknown, npos)
  else if findLast name kLogPostfix = lengthMinus name kPostfixLength then parseStem name .log
  else if findLast name kSstTablePostfix = lengthMinus name kPostfixLength
    then parseStem name .sstTable
  else if findLast name kXmtTablePostfix = lengthMinus name kPostfixLength
    then parseStem name .xmtTable
  else if findLast name kS1tTablePostfix = lengthMinus name kPostfixLength
    then parseStem name .s1tTable
  else (.unknown, npos)

def decimal (n : ℕ) : Bytes :=
  if n = 0 then [48] else ((Nat.digits 10 n).map fun d => UInt8.ofNat (48 + d)).reverse

def Kind.extension : Kind → Option Bytes
  | .log => some kLogPostfix
  | .sstTable => some kSstTablePostfix
  | .xmtTable => some kXmtTablePostfix
  | .s1tTable => some kS1tTablePostfix
  | _ => none

inductive Named : Kind → Bytes → Bytes → Prop
  | manifest (stem : Bytes) : Named .manifest stem (kManifestPrefix ++ stem)
  | withExtension {kind : Kind} {ext : Bytes} (h : kind.extension = some ext) (stem : Bytes) :
      Named kind stem (stem ++ ext)

def formatPath (dir name : Bytes) : Bytes := (dir ++ 47 :: name).take 259

def logFileName (dbName : Bytes) (number : ℕ) : Bytes :=
  formatPath dbName (decimal number ++ kLogPostfix)

def tableFileName (cfPath : Bytes) (kind : Kind) (number : ℕ) : Bytes :=
  formatPath cfPath (decimal number ++ match kind with
    | .sstTable => kSstTablePostfix
    | .xmtTable => kXmtTablePostfix
    | .s1tTable => kS1tTablePostfix
    | _ => ascii ['.', 'E', 'R', 'R', 'O', 'R'])

def manifestFileName (dbName : Bytes) (number : ℕ) : Bytes :=
  formatPath dbName (kManifestPrefix ++ decimal number)

def baseName (path : Bytes) : Bytes := (path.reverse.takeWhile (· ≠ 47)).reverse

def Kind.numbered : Kind → Bool
  | .log | .sstTable | .xmtTable | .s1tTable | .manifest => true
  | _ => false

def fileName (dir : Bytes) : Kind → ℕ → Bytes
  | .log, number => logFileName dir number
  | .manifest, number => manifestFileName dir number
  | kind, number => tableFileName dir kind number

def Recognized (dir name : Bytes) : Prop :=
  ∀ kind : Kind, kind.numbered = true → ∀ n < 2 ^ 64, parseName name = (kind, n) ↔
    name = baseName (fileName dir kind n)

lemma decimalValue_eq (digits : Bytes) :
    decimalValue digits = Nat.ofDigits 10 (digits.reverse.map fun c => c.toNat - 48) := by
  induction digits using List.reverseRecOn with
  | nil => rfl
  | append_singleton digits c ih =>
    rw [decimalValue, foldl_append] at *
    rw [ih, reverse_append, map_append]
    simp [Nat.ofDigits_cons, add_comm, mul_comm]

lemma toNat_digit {d : ℕ} (h : d < 10) : (UInt8.ofNat (48 + d)).toNat = 48 + d := by
  rw [UInt8.toNat_ofNat']
  omega

lemma decimalValue_decimal (n : ℕ) : decimalValue (decimal n) = n := by
  rw [decimalValue_eq, decimal]
  split_ifs with hzero
  · rw [hzero]; rfl
  · have hdigits : (Nat.digits 10 n).map
        ((fun c : UInt8 => c.toNat - 48) ∘ fun d => UInt8.ofNat (48 + d)) =
        (Nat.digits 10 n).map id := by
      refine map_congr_left fun d hd => ?_
      rw [Function.comp_apply, toNat_digit (Nat.digits_lt_base (by decide) hd),
        Nat.add_sub_cancel_left, id]
    rw [reverse_reverse, List.map_map, hdigits, List.map_id, Nat.ofDigits_digits]

lemma isNumber_decimal (n : ℕ) : isNumber (decimal n) = true := by
  rw [isNumber, decide_eq_true_iff, decimal]
  split_ifs with hzero
  · decide
  · refine ⟨by simpa [Nat.digits_eq_nil_iff_eq_zero] using hzero,
      List.all_eq_true.mpr fun c hc => ?_⟩
    obtain ⟨d, hd, rfl⟩ := List.mem_map.mp (mem_reverse.mp hc)
    have hlt : d < 10 := Nat.digits_lt_base (by decide) hd
    rw [isDigit, decide_eq_true_iff, toNat_digit hlt]
    omega

lemma atoll_decimal {n : ℕ} (h : n < 2 ^ 63) : atoll (decimal n) = n := by
  rw [atoll, decimalValue_decimal]
  omega

lemma atoll_lt (digits : Bytes) : atoll digits < 2 ^ 63 := by
  rw [atoll]
  omega

section Names
variable {name stem ext : Bytes} {kind : Kind}

lemma isNumber_head (h : isNumber stem = true) : ∃ c rest, stem = c :: rest ∧ isDigit c = true := by
  rw [isNumber, decide_eq_true_iff] at h
  obtain ⟨c, rest, rfl⟩ := exists_cons_of_ne_nil h.1
  exact ⟨c, rest, rfl, List.all_eq_true.mp h.2 c (by simp)⟩

lemma findFirst_eq_zero (pattern : Bytes) : findFirst name pattern = 0 ↔ pattern <+: name := by
  have hzero : matchesAt name pattern 0 = true ↔ pattern <+: name := by
    rw [matchesAt, drop_zero, isPrefixOf_iff_prefix]
  rw [findFirst, range_succ_eq_map, find?_cons]
  cases hmatch : matchesAt name pattern 0 with
  | true => exact iff_of_true rfl (hzero.mp hmatch)
  | false =>
    refine iff_of_false (fun h => ?_) fun h => by simp [hzero.mpr h] at hmatch
    cases hfind : ((List.range name.length).map Nat.succ).find? (matchesAt name pattern) with
    | none => rw [hfind] at h; cases h
    | some i =>
      obtain ⟨j, -, rfl⟩ := List.mem_map.mp (mem_of_find?_eq_some hfind)
      rw [hfind] at h
      cases h

lemma matchesAt_iff {i : ℕ} : matchesAt name ext i = true ↔ ext <+: name.drop i := by
  rw [matchesAt, isPrefixOf_iff_prefix]

lemma matchesAt_le {i : ℕ} (hext : ext.length = kPostfixLength) (h : matchesAt name ext i = true) :
    i + kPostfixLength ≤ name.length := by
  have hlen := (matchesAt_iff.mp h).length_le
  rw [List.length_drop, hext] at hlen
  have : 0 < kPostfixLength := by decide
  omega

lemma findLast_append (hext : ext.length = kPostfixLength) (stem : Bytes) :
    findLast (stem ++ ext) ext = stem.length := by
  have hfound : (List.range ((stem ++ ext).length + 1)).reverse.find? (matchesAt (stem ++ ext) ext)
      = some stem.length := by
    refine find?_eq_some_iff_append.mpr ⟨matchesAt_iff.mpr (by simp), ?_⟩
    refine ⟨((List.range ext.length).map fun j => stem.length + 1 + j).reverse,
      (List.range stem.length).reverse, ?_, ?_⟩
    · rw [length_append, add_right_comm, range_add, range_succ]
      simp
    · intro i hi
      obtain ⟨j, -, rfl⟩ := List.mem_map.mp (mem_reverse.mp hi)
      refine Bool.not_eq_true' _ ▸ Bool.eq_false_iff.mpr fun hmatch => ?_
      have hle := matchesAt_le hext hmatch
      rw [length_append, hext] at hle
      omega
  rw [findLast, hfound, getD_some]

lemma findLast_eq_iff (hext : ext.length = kPostfixLength) (hname : name.length < 2 ^ 64) :
    findLast name ext = lengthMinus name kPostfixLength ↔ (∃ stem, name = stem ++ ext) ∨
      name.length = 3 := by
  have hfour : kPostfixLength = 4 := rfl
  constructor
  · intro heq
    rw [findLast, lengthMinus, npos, hfour] at heq
    cases hfind : (List.range (name.length + 1)).reverse.find? (matchesAt name ext) with
    | none =>
      rw [hfind, getD_none] at heq
      exact .inr (by omega)
    | some i =>
      have hmatch : matchesAt name ext i = true := find?_some hfind
      have hle := matchesAt_le hext hmatch
      rw [hfind, getD_some] at heq
      have hdrop : ext = name.drop i :=
        (matchesAt_iff.mp hmatch).eq_of_length (by rw [List.length_drop]; omega)
      exact .inl ⟨name.take i, by rw [hdrop, take_append_drop]⟩
  · rintro (⟨stem, rfl⟩ | hthree)
    · rw [length_append] at hname
      rw [findLast_append hext, lengthMinus, length_append]
      omega
    · have hnone : (List.range (name.length + 1)).reverse.find? (matchesAt name ext) = none := by
        refine find?_eq_none.mpr fun i _ hmatch => ?_
        have hle := matchesAt_le hext hmatch
        omega
      rw [findLast, hnone, lengthMinus, hthree, hfour]
      rfl

lemma parseStem_append (hext : ext.length = kPostfixLength)
    (hname : (stem ++ ext).length < 2 ^ 64) :
    parseStem (stem ++ ext) kind = if isNumber stem then (kind, atoll stem)
      else (.unknown, npos) := by
  have hlength : lengthMinus (stem ++ ext) kPostfixLength = stem.length := by
    rw [← (findLast_eq_iff hext hname).mpr (.inl ⟨stem, rfl⟩), findLast_append hext]
  rw [parseStem, hlength, take_left]

lemma parseStem_three (hthree : name.length = 3) :
    parseStem name kind = if isNumber name then (kind, atoll name) else (.unknown, npos) := by
  have hall : name.take (lengthMinus name kPostfixLength) = name := by
    refine take_of_length_le ?_
    rw [lengthMinus, hthree]
    decide
  rw [parseStem, hall]

lemma length_extension (h : kind.extension = some ext) : ext.length = kPostfixLength := by
  cases kind <;> cases h <;> rfl

lemma parseName_digit {c : UInt8} {rest : Bytes} (hname : name = c :: rest)
    (hdigit : isDigit c = true) :
    parseName name =
      if findLast name kLogPostfix = lengthMinus name kPostfixLength then parseStem name .log
      else if findLast name kSstTablePostfix = lengthMinus name kPostfixLength
        then parseStem name .sstTable
      else if findLast name kXmtTablePostfix = lengthMinus name kPostfixLength
        then parseStem name .xmtTable
      else if findLast name kS1tTablePostfix = lengthMinus name kPostfixLength
        then parseStem name .s1tTable
      else (.unknown, npos) := by
  have hne : ∀ d : UInt8, isDigit d = false → c ≠ d := by
    rintro d hd rfl
    rw [hd] at hdigit
    cases hdigit
  have hlock : name ≠ kLockName := by
    rw [hname]
    exact fun h => hne 76 (by decide) (List.cons.inj h).1
  have hcurrent : name ≠ kCurrentName := by
    rw [hname]
    exact fun h => hne 67 (by decide) (List.cons.inj h).1
  have hmanifest : findFirst name kManifestPrefix ≠ 0 := by
    rw [Ne, findFirst_eq_zero, hname]
    exact fun h => hne 77 (by decide) (cons_prefix_cons.mp h).1.symm
  rw [parseName, if_neg hlock, if_neg hcurrent, if_neg hmanifest]

lemma parseName_three (hthree : name.length = 3) (hnumber : isNumber name = true) :
    parseName name = (.log, atoll name) := by
  obtain ⟨c, rest, hcons, hdigit⟩ := isNumber_head hnumber
  rw [parseName_digit hcons hdigit, if_pos ((findLast_eq_iff rfl (by omega)).mpr (.inr hthree)),
    parseStem_three hthree, if_pos hnumber]

lemma parseName_extension (hext : kind.extension = some ext) (hname : (stem ++ ext).length < 2 ^ 64)
    (hnumber : isNumber stem = true) : parseName (stem ++ ext) = (kind, atoll stem) := by
  have hlen := length_extension hext
  obtain ⟨c, rest, rfl, hdigit⟩ := isNumber_head hnumber
  have htest {pat : Bytes} (hpat : pat.length = kPostfixLength) :
      findLast (c :: rest ++ ext) pat = lengthMinus (c :: rest ++ ext) kPostfixLength ↔
        pat = ext := by
    rw [findLast_eq_iff hpat hname]
    constructor
    · rintro (⟨stem', heq⟩ | hthree)
      · exact (append_inj' heq (hlen.trans hpat.symm)).2.symm
      · rw [length_append, hlen] at hthree
        cases hthree
    · rintro rfl
      exact .inl ⟨_, rfl⟩
  have hlog : kLogPostfix.length = kPostfixLength := rfl
  have hsst : kSstTablePostfix.length = kPostfixLength := rfl
  have hxmt : kXmtTablePostfix.length = kPostfixLength := rfl
  have hs1t : kS1tTablePostfix.length = kPostfixLength := rfl
  rw [parseName_digit cons_append hdigit]
  simp only [htest hlog, htest hsst, htest hxmt, htest hs1t, parseStem_append hlen hname, hnumber,
    if_true]
  cases kind <;> cases hext <;> rfl

lemma drop_manifestPrefix (stem : Bytes) :
    (kManifestPrefix ++ stem).drop kManifestPrefixLength = stem :=
  drop_left' rfl

lemma ne_of_not_numbered {kind' : Kind} {m n : ℕ} (hkind : kind.numbered = true)
    (hkind' : kind'.numbered = false) :
    (kind', m) ≠ (kind, n) := by
  intro h
  rw [← (Prod.mk.inj h).1, hkind'] at hkind
  cases hkind

lemma parseName_named (hnamed : Named kind stem name) (hname : name.length < 2 ^ 64)
    (hnumber : isNumber stem = true) :
    parseName name = (kind, atoll stem) := by
  cases hnamed with
  | manifest =>
    have hlock : kManifestPrefix ++ stem ≠ kLockName :=
      fun h => absurd (List.cons.inj h).1 (by decide)
    have hcurrent : kManifestPrefix ++ stem ≠ kCurrentName :=
      fun h => absurd (List.cons.inj h).1 (by decide)
    have hmanifest : findFirst (kManifestPrefix ++ stem) kManifestPrefix = 0 :=
      (findFirst_eq_zero _).mpr (prefix_append _ _)
    rw [parseName, if_neg hlock, if_neg hcurrent, if_pos hmanifest]
    simp only [drop_manifestPrefix, hnumber, if_true]
  | withExtension hext => exact parseName_extension hext hname hnumber

lemma parseStem_cases {kind' : Kind} {n : ℕ} (hext : kind'.extension = some ext)
    (hname : name.length < 2 ^ 64) (htest : findLast name ext = lengthMinus name kPostfixLength)
    (hkind : kind.numbered = true) (hparse : parseStem name kind' = (kind, n)) :
    (∃ stem, Named kind stem name ∧ isNumber stem = true ∧ n = atoll stem) ∨ name.length = 3 ∧
      isNumber name = true := by
  rcases (findLast_eq_iff (length_extension hext) hname).mp htest with ⟨stem, rfl⟩ | hthree
  · rw [parseStem_append (length_extension hext) hname] at hparse
    split_ifs at hparse with hnumber
    · cases hparse
      exact .inl ⟨stem, .withExtension hext stem, hnumber, rfl⟩
    · exact absurd hparse (ne_of_not_numbered hkind rfl)
  · rw [parseStem_three hthree] at hparse
    split_ifs at hparse with hnumber
    · exact .inr ⟨hthree, hnumber⟩
    · exact absurd hparse (ne_of_not_numbered hkind rfl)

lemma parseName_cases {n : ℕ} (hname : name.length < 2 ^ 64) (hkind : kind.numbered = true)
    (hparse : parseName name = (kind, n)) :
    (∃ stem, Named kind stem name ∧ isNumber stem = true ∧ n = atoll stem) ∨ name.length = 3 ∧
      isNumber name = true := by
  simp only [parseName] at hparse
  split_ifs at hparse with hlock hcurrent hmanifest hnumber hlog hsst hxmt hs1t
  · exact absurd hparse (ne_of_not_numbered hkind rfl)
  · exact absurd hparse (ne_of_not_numbered hkind rfl)
  · obtain ⟨stem, rfl⟩ := (findFirst_eq_zero _).mp hmanifest
    rw [drop_manifestPrefix] at hnumber hparse
    cases hparse
    exact .inl ⟨stem, .manifest stem, hnumber, rfl⟩
  · exact absurd hparse (ne_of_not_numbered hkind rfl)
  · exact parseStem_cases rfl hname hlog hkind hparse
  · exact parseStem_cases rfl hname hsst hkind hparse
  · exact parseStem_cases rfl hname hxmt hkind hparse
  · exact parseStem_cases rfl hname hs1t hkind hparse
  · exact absurd hparse (ne_of_not_numbered hkind rfl)

end Names

section Formatters
variable {dir name stem : Bytes} {kind : Kind} {n : ℕ}

lemma length_decimal_le (h : n < 2 ^ 64) : (decimal n).length ≤ 20 := by
  rw [decimal]
  split_ifs
  · decide
  · rw [length_reverse, length_map, Nat.digits_length_le_iff (by decide)]
    omega

lemma slash_notMem_decimal : 47 ∉ decimal n := by
  intro hmem
  have hnumber := isNumber_decimal n
  rw [isNumber, decide_eq_true_iff, List.all_eq_true] at hnumber
  exact absurd (hnumber.2 47 hmem) (by decide)

lemma baseName_formatPath (hfits : dir.length + name.length < 259) (hslash : 47 ∉ name) :
    baseName (formatPath dir name) = name := by
  have hpath : formatPath dir name = dir ++ 47 :: name := by
    rw [formatPath, take_of_length_le]
    rw [length_append, length_cons]
    omega
  rw [baseName, hpath, reverse_append, reverse_cons, append_assoc, takeWhile_append_of_pos]
  · simp
  · intro c hc
    have : c ≠ 47 := fun h => hslash (h ▸ mem_reverse.mp hc)
    simpa using this

lemma fileName_extension {ext : Bytes} (hext : kind.extension = some ext) :
    fileName dir kind n = formatPath dir (decimal n ++ ext) := by
  cases kind <;> cases hext <;> rfl

lemma named_fileName (hkind : kind.numbered = true) (hn : n < 2 ^ 64) (hdir : dir.length ≤ 229) :
    Named kind (decimal n) (baseName (fileName dir kind n)) := by
  have hdigits := length_decimal_le hn
  by_cases hmanifest : kind = .manifest
  · subst hmanifest
    rw [fileName, manifestFileName, baseName_formatPath]
    · exact .manifest _
    · have hlen : kManifestPrefix.length = 9 := rfl
      rw [length_append]
      omega
    · rw [mem_append, not_or]
      exact ⟨by decide, slash_notMem_decimal⟩
  · obtain ⟨ext, hext⟩ : ∃ ext, kind.extension = some ext := by
      cases kind <;> first | exact ⟨_, rfl⟩ | exact absurd rfl hmanifest | cases hkind
    have hslash : 47 ∉ ext := by
      cases kind <;> cases hext <;> decide
    have hlen : ext.length = 4 := length_extension hext
    rw [fileName_extension hext, baseName_formatPath]
    · exact .withExtension hext _
    · rw [length_append]
      omega
    · rw [mem_append, not_or]
      exact ⟨slash_notMem_decimal, hslash⟩

lemma Named.name_eq {name' : Bytes} (h : Named kind stem name) (h' : Named kind stem name') :
    name = name' := by
  cases h with
  | manifest =>
    cases h' with
    | manifest => rfl
    | withExtension hext => cases hext
  | withExtension hext =>
    cases h' with
    | manifest => cases hext
    | withExtension hext' => rw [Option.some.inj (hext.symm.trans hext')]

lemma Named.stem_eq {stem' : Bytes} (h : Named kind stem name) (h' : Named kind stem' name) :
    stem = stem' := by
  cases h with
  | manifest =>
    generalize hname : kManifestPrefix ++ stem = name at h'
    cases h' with
    | manifest => exact append_cancel_left hname
    | withExtension hext => cases hext
  | @withExtension _ ext hext =>
    generalize hname : stem ++ ext = name at h'
    cases h' with
    | manifest => cases hext
    | withExtension hext' =>
      rw [Option.some.inj (hext.symm.trans hext')] at hname
      exact append_cancel_right hname

lemma Named.numbered (h : Named kind stem name) : kind.numbered = true := by
  cases h with
  | manifest => rfl
  | withExtension hext => cases kind <;> first | rfl | cases hext

lemma Named.extension_le (h : Named kind stem name) {ext : Bytes}
    (hext : kind.extension = some ext) : 4 ≤ name.length := by
  cases h with
  | manifest => cases hext
  | withExtension hext' =>
    rw [length_append, length_extension hext']
    exact Nat.le_add_left _ _

lemma Named.length_le (h : Named kind stem name) : name.length ≤ stem.length + 9 := by
  cases h with
  | manifest => rw [length_append, add_comm]; exact le_rfl
  | withExtension hext =>
    rw [length_append, length_extension hext]
    exact Nat.add_le_add_left (by decide) _

/-- A name that is not three digits, and whose number, if it has one, is below `2 ^ 63` and written
without further zeros. -/
def Plain (name : Bytes) : Prop :=
  ¬ (name.length = 3 ∧ isNumber name = true) ∧
    ∀ kind stem, Named kind stem name → isNumber stem = true →
      stem = decimal (decimalValue stem) ∧ decimalValue stem < 2 ^ 63

lemma plain_fileName (kind : Kind) (hkind : kind.numbered = true) (hn : n < 2 ^ 63)
    (hdir : dir.length ≤ 229) :
    Plain (baseName (fileName dir kind n)) := by
  have hnamed := named_fileName hkind (hn.trans (by decide)) hdir
  have hlen : (baseName (fileName dir kind n)).length < 2 ^ 64 := by
    refine lt_of_le_of_lt hnamed.length_le ?_
    have := length_decimal_le (hn.trans (by decide : 2 ^ 63 < 2 ^ 64))
    omega
  have hparse := parseName_named hnamed hlen (isNumber_decimal n)
  refine ⟨fun ⟨hthree, hnumber⟩ => ?_, fun kind' stem' hnamed' hnumber' => ?_⟩
  · obtain ⟨rfl, -⟩ := Prod.mk.inj (hparse.symm.trans (parseName_three hthree hnumber))
    have hfour := hnamed.extension_le rfl
    omega
  · obtain ⟨rfl, -⟩ := Prod.mk.inj (hparse.symm.trans (parseName_named hnamed' hlen hnumber'))
    rw [hnamed'.stem_eq hnamed, decimalValue_decimal]
    exact ⟨rfl, hn⟩

/-- A name stands for the file of its kind and number, and for no other, exactly if it is plain. -/
theorem recognized_iff (dir name : Bytes) (hdir : dir.length ≤ 229) (hname : name.length < 2 ^ 64) :
    Recognized dir name ↔ Plain name := by
  constructor
  · intro hrec
    have hwritten {kind : Kind} {stem : Bytes} (hkind : kind.numbered = true)
        (hparse : parseName name = (kind, atoll stem)) :
        Named kind (decimal (atoll stem)) name := by
      have hlt : atoll stem < 2 ^ 64 := (atoll_lt stem).trans (by decide)
      have heq := (hrec kind hkind _ hlt).mp hparse
      have hnamed := named_fileName hkind hlt hdir
      rwa [← heq] at hnamed
    refine ⟨fun ⟨hthree, hnumber⟩ => ?_, fun kind stem hnamed hnumber => ?_⟩
    · have hfour := (hwritten rfl (parseName_three hthree hnumber)).extension_le rfl
      omega
    · have hstem := hnamed.stem_eq (hwritten hnamed.numbered (parseName_named hnamed hname hnumber))
      have hvalue : decimalValue stem = atoll stem := by
        rw [hstem, decimalValue_decimal, ← hstem]
      exact ⟨hvalue ▸ hstem, hvalue ▸ atoll_lt stem⟩
  · rintro ⟨hthree, hplain⟩ kind hkind n hn
    have hnamed := named_fileName hkind hn hdir
    constructor
    · intro hparse
      rcases parseName_cases hname hkind hparse with ⟨stem, hstem, hnumber, rfl⟩ | hdigits
      · obtain ⟨heq, hlt⟩ := hplain kind stem hstem hnumber
        have hvalue : decimalValue stem = atoll stem := by
          rw [atoll]
          omega
        rw [hvalue] at heq
        exact (heq ▸ hstem).name_eq hnamed
      · exact absurd hdigits hthree
    · intro heq
      rw [← heq] at hnamed
      obtain ⟨-, hlt⟩ := hplain kind _ hnamed (isNumber_decimal n)
      rw [decimalValue_decimal] at hlt
      rw [parseName_named hnamed hname (isNumber_decimal n), atoll_decimal hlt]

theorem recognized_log : Recognized [] (baseName (logFileName [] 12)) :=
  (recognized_iff [] _ (by decide) (by decide +kernel)).mpr
    (plain_fileName .log rfl (by decide) (by decide))

/-- `123`, `01.log` and the log numbered `2 ^ 63` are all taken for a log that has another name. -/
theorem parseName_misread :
    parseName (ascii ['1', '2', '3']) = (.log, 123) ∧ ¬ Recognized [] (ascii ['1', '2', '3']) ∧
      parseName (ascii ['0', '1', '.', 'l', 'o', 'g']) = (.log, 1) ∧
        ¬ Recognized [] (ascii ['0', '1', '.', 'l', 'o', 'g']) ∧
      parseName (baseName (logFileName [] (2 ^ 63))) = (.log, 2 ^ 63 - 1) ∧
      ¬ Recognized [] (baseName (logFileName [] (2 ^ 63))) := by
  have hthree : parseName (ascii ['1', '2', '3']) = (.log, 123) := by decide +kernel
  have hzero : parseName (ascii ['0', '1', '.', 'l', 'o', 'g']) = (.log, 1) := by decide +kernel
  have hlarge : parseName (baseName (logFileName [] (2 ^ 63))) = (.log, 2 ^ 63 - 1) := by
    decide +kernel
  refine ⟨hthree, fun h => ?_, hzero, fun h => ?_, hlarge, fun h => ?_⟩
  · exact absurd ((h .log rfl 123 (by decide)).mp hthree) (by decide +kernel)
  · exact absurd ((h .log rfl 1 (by decide)).mp hzero) (by decide +kernel)
  · exact absurd ((h .log rfl (2 ^ 63) (by decide)).mpr rfl) (by rw [hlarge]; decide)

end Formatters

end Mai.DbFiles
