import Mathlib

/-!
# Expression parsing

`Parser::ParseExpression` climbs the priorities of the `Operators` table (`lang/parser.cc`,
`lang/syntax.h`). The operator that ends an expression is handed back to the caller, except after a
prefix operator.
-/
namespace Mai.LangExpression
open List Option

inductive OpKind
  | add | sub | mul | div | mod | minus | increment | incrementPost | decrement | decrementPost
  | bitwiseShl | bitwiseShr | bitwiseAnd | bitwiseOr | bitwiseNot | bitwiseXor
  | equal | notEqual | less | lessEqual | greater | greaterEqual | and | or | not | recv | send
  deriving DecidableEq

def kUnaryPrio : ℕ := 110

namespace OpKind

def left : OpKind → ℕ
  | mul | div | mod | send => 100
  | add | sub => 90
  | bitwiseShl | bitwiseShr => 70
  | equal | notEqual | less | lessEqual | greater | greaterEqual => 60
  | bitwiseXor | bitwiseAnd => 40
  | bitwiseOr => 30
  | and => 20
  | or => 10
  | not | bitwiseNot | minus | recv | increment | incrementPost | decrement | decrementPost =>
    kUnaryPrio

def right (op : OpKind) : ℕ := op.left

def operands : OpKind → ℕ
  | not | bitwiseNot | minus | recv | increment | incrementPost | decrement | decrementPost => 1
  | _ => 2

def assignment : OpKind → Bool
  | increment | incrementPost | decrement | decrementPost => true
  | _ => false

end OpKind

inductive Token
  | not | wave | minus | lArrow | plus2 | minus2 | plus | star | div | percent | lShift | rShift
  | bitwiseAnd | bitwiseOr | bitwiseXor | equal | notEqual | less | lessEqual | greater
  | greaterEqual | and | or
  | identifier (name : String)
  | lParen | rParen | more | rArrow
  deriving DecidableEq

def getPrefixOp : List Token → Option OpKind
  | .not :: _ => some .not
  | .wave :: _ => some .bitwiseNot
  | .minus :: _ => some .minus
  | .lArrow :: _ => some .recv
  | .plus2 :: _ => some .increment
  | .minus2 :: _ => some .decrement
  | _ => none

def getPostfixOp : List Token → Option OpKind
  | .plus :: _ => some .add
  | .minus :: _ => some .sub
  | .star :: _ => some .mul
  | .div :: _ => some .div
  | .percent :: _ => some .mod
  | .lArrow :: _ => some .send
  | .lShift :: _ => some .bitwiseShl
  | .rShift :: _ => some .bitwiseShr
  | .bitwiseAnd :: _ => some .bitwiseAnd
  | .bitwiseOr :: _ => some .bitwiseOr
  | .bitwiseXor :: _ => some .bitwiseXor
  | .equal :: _ => some .equal
  | .notEqual :: _ => some .notEqual
  | .less :: _ => some .less
  | .lessEqual :: _ => some .lessEqual
  | .greater :: _ => some .greater
  | .greaterEqual :: _ => some .greaterEqual
  | .and :: _ => some .and
  | .or :: _ => some .or
  | .plus2 :: _ => some .incrementPost
  | .minus2 :: _ => some .decrementPost
  | _ => none

inductive Expr
  | ident (name : String)
  | unary (op : OpKind) (operand : Expr)
  | binary (op : OpKind) (lhs rhs : Expr)
  | pair (key value : Expr)
  | pairAdd (value : Expr)
  deriving DecidableEq

def Expr.isLValue : Expr → Bool
  | .ident _ => true
  | _ => false

/-- What `ParseExpression` returns: the expression, its receiver, if it has been set, and the tokens
that are left. -/
abbrev Result := Option (Expr × Option (Option OpKind) × List Token)

/-- `ParseSuffixed` after a primary expression; a call has no result here. -/
def parseSuffixed (expr : Expr) (toks : List Token) : Option (Expr × List Token) :=
  if toks.head? = some .lParen then none else some (expr, toks)

def matchRParen (expr : Expr) : List Token → Option (Expr × List Token)
  | .rParen :: toks => parseSuffixed expr toks
  | _ => none

mutual
/-- `ParseExpression`; there is no result where it fails or an operator that has not been set is
read. -/
def parseExpression : ℕ → ℕ → List Token → Result
  | 0, _, _ => none
  | fuel + 1, limit, toks =>
    match getPrefixOp toks with
    | some op =>
      match parseExpression fuel kUnaryPrio toks.tail with
      | some (operand, _, rest) =>
        if op.assignment && !operand.isLValue then none else some (.unary op operand, none, rest)
      | none => none
    | none =>
      match parsePrimary fuel toks with
      | some (expr, rest) => parseOperators fuel limit expr (getPostfixOp rest) rest
      | none => none

def parseOperators : ℕ → ℕ → Expr → Option OpKind → List Token → Result
  | 0, _, _, _, _ => none
  | _ + 1, _, expr, none, toks => some (expr, some none, toks)
  | fuel + 1, limit, expr, some op, toks =>
    if limit < op.left then
      if op.assignment && !expr.isLValue then none
      else if op.operands = 1 then
        parseOperators fuel limit (.unary op expr) (getPostfixOp toks.tail) toks.tail
      else
        match parseExpression fuel op.right toks.tail with
        | some (rhs, some nextOp, rest) =>
          parseOperators fuel limit (.binary op expr rhs) nextOp rest
        | _ => none
    else some (expr, some (some op), toks)

/-- `ParsePrimary` for identifiers and parentheses, with `ParseSuffixed` after it. -/
def parsePrimary : ℕ → List Token → Option (Expr × List Token)
  | 0, _ => none
  | fuel + 1, toks =>
    match toks with
    | .identifier name :: toks => parseSuffixed (.ident name) toks
    | .lParen :: .more :: .rArrow :: toks =>
      (parseExpression fuel 0 toks).bind fun (value, _, rest) => matchRParen (.pairAdd value) rest
    | .lParen :: toks =>
      (parseExpression fuel 0 toks).bind fun (expr, _, rest) =>
        match rest with
        | .rArrow :: toks => (parseExpression fuel 0 toks).bind fun (value, _, rest) =>
          matchRParen (.pair expr value) rest
        | _ => matchRParen expr rest
    | _ => none
end

namespace OpKind

def isPrefix : OpKind → Bool
  | not | bitwiseNot | minus | recv | increment | decrement => true
  | _ => false

def token : OpKind → Token
  | not => .not
  | bitwiseNot => .wave
  | minus | sub => .minus
  | recv | send => .lArrow
  | increment | incrementPost => .plus2
  | decrement | decrementPost => .minus2
  | add => .plus
  | mul => .star
  | div => .div
  | mod => .percent
  | bitwiseShl => .lShift
  | bitwiseShr => .rShift
  | bitwiseAnd => .bitwiseAnd
  | bitwiseOr => .bitwiseOr
  | bitwiseXor => .bitwiseXor
  | equal => .equal
  | notEqual => .notEqual
  | less => .less
  | lessEqual => .lessEqual
  | greater => .greater
  | greaterEqual => .greaterEqual
  | and => .and
  | or => .or

end OpKind

namespace Expr

def isPre : Expr → Bool
  | .unary op _ => op.isPrefix
  | _ => false

def isIdent : Expr → Bool
  | .ident _ => true
  | _ => false

def isBelow (p : ℕ) : Expr → Bool
  | .binary op _ _ => op.left < p
  | _ => false

end Expr

def paren (b : Bool) (toks : List Token) : List Token :=
  if b then .lParen :: toks ++ [.rParen] else toks

/-- The tokens of an expression, with parentheses around an operand of a prefix operator unless it
is an identifier or has a prefix operator, and around a binary operand of lower priority, or of
equal priority on the right. -/
def print : Expr → List Token
  | .ident name => [.identifier name]
  | .unary op e =>
    if op.isPrefix then op.token :: paren (!(e.isIdent || e.isPre)) (print e)
    else print e ++ [op.token]
  | .binary op l r =>
    paren (l.isBelow op.left) (print l) ++ op.token :: paren (r.isBelow (op.left + 1)) (print r)
  | .pair _ _ | .pairAdd _ => []

/-- The trees of identifiers, the prefix operators other than `++` and `--`, the postfix operators
on identifiers and the binary operators. -/
inductive Printable : Expr → Prop
  | ident (name : String) : Printable (.ident name)
  | pre (op : OpKind) (e : Expr) : op.isPrefix → op.assignment = false → Printable e → Printable
      (.unary op e)
  | post (op : OpKind) (name : String) :
      op = .incrementPost ∨ op = .decrementPost → Printable (.unary op (.ident name))
  | binary (op : OpKind) (l r : Expr) :
      op.operands = 2 → Printable l → Printable r → Printable (.binary op l r)

def Clean : Expr → Prop
  | .unary _ e => Clean e
  | .binary _ l r => l.isPre = false ∧ r.isPre = false ∧ Clean l ∧ Clean r
  | _ => True

def RoundTrips (t : Expr) : Prop :=
  ∃ fuel receiver, parseExpression fuel 0 (print t) = some (t, receiver, [])

section Fuel

structure Monotone (fuel : ℕ) : Prop where
  expression : ∀ limit toks r, parseExpression fuel limit toks = some r →
    parseExpression (fuel + 1) limit toks = some r
  operators : ∀ limit e o toks r,
    parseOperators fuel limit e o toks = some r → parseOperators (fuel + 1) limit e o toks = some r
  primary : ∀ toks r, parsePrimary fuel toks = some r → parsePrimary (fuel + 1) toks = some r

lemma monotone (fuel : ℕ) : Monotone fuel := by
  induction fuel with
  | zero => exact ⟨nofun, nofun, nofun⟩
  | succ fuel ih =>
    refine ⟨fun limit toks r h => ?_, fun limit e o toks r h => ?_, fun toks r h => ?_⟩
    · rw [parseExpression] at h ⊢
      split at h
      · split at h
        · next heq => rw [ih.expression _ _ _ heq]; exact h
        · cases h
      · split at h
        · next heq => rw [ih.primary _ _ heq]; exact ih.operators _ _ _ _ _ h
        · cases h
    · cases o with
      | none => exact h
      | some op =>
        rw [parseOperators] at h ⊢
        split_ifs at h ⊢
        · exact ih.operators _ _ _ _ _ h
        · split at h
          · next heq => rw [ih.expression _ _ _ heq]; exact ih.operators _ _ _ _ _ h
          · cases h
        · exact h
    · have hbind {f g : _ → Option (Expr × List Token)} {ts : List Token}
          (hfg : ∀ a r, f a = some r → g a = some r) (r)
          (h : (parseExpression fuel 0 ts).bind f = some r) :
            (parseExpression (fuel + 1) 0 ts).bind g = some r := by
        obtain ⟨a, ha, hr⟩ := bind_eq_some_iff.mp h
        exact bind_eq_some_iff.mpr ⟨a, ih.expression _ _ _ ha, hfg a r hr⟩
      unfold parsePrimary at h ⊢
      split at h
      · exact h
      · exact hbind (fun _ _ h => h) r h
      · refine hbind (fun (e, o, rest) r h => ?_) r h
        dsimp only at h ⊢
        split at h
        · exact hbind (fun _ _ h => h) r h
        · exact h
      · cases h

def Parses (limit : ℕ) (toks : List Token) (r : Expr × Option (Option OpKind) × List Token) :
    Prop :=
  ∃ fuel, parseExpression fuel limit toks = some r

def Continues (limit : ℕ) (e : Expr) (o : Option OpKind) (toks : List Token)
    (r : Expr × Option (Option OpKind) × List Token) :
    Prop := ∃ fuel, parseOperators fuel limit e o toks = some r

def Reads (toks : List Token) (r : Expr × List Token) : Prop :=
  ∃ fuel, parsePrimary fuel toks = some r

lemma monotone_le {fuel fuel' : ℕ} (h : fuel ≤ fuel') :
    (∀ limit toks r, parseExpression fuel limit toks = some r → parseExpression fuel' limit toks =
      some r) ∧
      (∀ limit e o toks r, parseOperators fuel limit e o toks = some r →
        parseOperators fuel' limit e o toks = some r) ∧
      ∀ toks r, parsePrimary fuel toks = some r → parsePrimary fuel' toks = some r := by
  induction h with
  | refl => exact ⟨fun _ _ _ h => h, fun _ _ _ _ _ h => h, fun _ _ h => h⟩
  | @step m _ ih =>
    have hm := monotone m
    exact ⟨fun _ _ _ h => hm.expression _ _ _ (ih.1 _ _ _ h),
      fun _ _ _ _ _ h => hm.operators _ _ _ _ _ (ih.2.1 _ _ _ _ _ h),
      fun _ _ h => hm.primary _ _ (ih.2.2 _ _ h)⟩

variable {limit : ℕ} {e : Expr} {op : OpKind} {o : Option OpKind} {toks rest : List Token}
  {r : Expr × Option (Option OpKind) × List Token}

lemma parses_pre {receiver : Option (Option OpKind)} (hop : getPrefixOp toks = some op)
    (ha : op.assignment = false) (h : Parses kUnaryPrio toks.tail (e, receiver, rest)) :
    Parses limit toks (.unary op e, none, rest) := by
  obtain ⟨fuel, h⟩ := h
  refine ⟨fuel + 1, ?_⟩
  rw [parseExpression, hop]
  simp [h, ha]

lemma parses_primary (hop : getPrefixOp toks = none) (hp : Reads toks (e, rest))
    (h : Continues limit e (getPostfixOp rest) rest r) : Parses limit toks r := by
  obtain ⟨f, hp⟩ := hp
  obtain ⟨g, h⟩ := h
  refine ⟨max f g + 1, ?_⟩
  rw [parseExpression, hop]
  dsimp only
  rw [(monotone_le (le_max_left f g)).2.2 _ _ hp]
  exact (monotone_le (le_max_right f g)).2.1 _ _ _ _ _ h

lemma continues_stop (h : ∀ op, o = some op → op.left ≤ limit) :
    Continues limit e o toks (e, some o, toks) := by
  refine ⟨1, ?_⟩
  cases o with
  | none => rfl
  | some op => rw [parseOperators, if_neg (not_lt.mpr (h op rfl))]

lemma continues_post (hop : limit < op.left) (h1 : op.operands = 1) (he : e.isLValue = true)
    (h : Continues limit (.unary op e) (getPostfixOp toks.tail) toks.tail r) :
    Continues limit e (some op) toks r := by
  obtain ⟨fuel, h⟩ := h
  refine ⟨fuel + 1, ?_⟩
  rw [parseOperators, if_pos hop, if_neg (by simp [he]), if_pos h1, h]

lemma continues_binary {rhs : Expr} {next : Option OpKind} (hop : limit < op.left)
    (h2 : op.operands = 2) (ha : op.assignment = false)
    (hr : Parses op.right toks.tail (rhs, some next, rest))
    (h : Continues limit (.binary op e rhs) next rest r) : Continues limit e (some op) toks r := by
  obtain ⟨f, hr⟩ := hr
  obtain ⟨g, h⟩ := h
  refine ⟨max f g + 1, ?_⟩
  rw [parseOperators, if_pos hop, if_neg (by simp [ha]), if_neg (by simp [h2]),
    (monotone_le (le_max_left f g)).1 _ _ _ hr]
  exact (monotone_le (le_max_right f g)).2.1 _ _ _ _ _ h

lemma reads_ident (name : String) (h : rest.head? ≠ some .lParen) :
    Reads (.identifier name :: rest) (.ident name, rest) := by
  refine ⟨1, ?_⟩
  simp [parsePrimary, parseSuffixed, h]

lemma reads_paren {receiver : Option (Option OpKind)} (hm : toks.head? ≠ some .more)
    (h : rest.head? ≠ some .lParen) (hp : Parses 0 toks (e, receiver, .rParen :: rest)) :
    Reads (.lParen :: toks) (e, rest) := by
  obtain ⟨fuel, hp⟩ := hp
  refine ⟨fuel + 1, ?_⟩
  unfold parsePrimary
  dsimp only
  split
  · next heq => cases heq
  · next heq =>
    cases heq
    exact absurd rfl hm
  · next heq =>
    cases heq
    simp [hp, matchRParen, parseSuffixed, h]
  · next hno => exact absurd rfl (hno toks)

end Fuel

section Climbing

variable {limit : ℕ} {t l r : Expr} {op : OpKind} {rest : List Token}
  {res : Expr × Option (Option OpKind) × List Token}

lemma getPostfixOp_token (h : op.isPrefix = false) : getPostfixOp (op.token :: rest) = some op := by
  cases op <;> first | rfl | cases h

lemma getPrefixOp_token (h : op.isPrefix = true) : getPrefixOp (op.token :: rest) = some op := by
  cases op <;> first | rfl | cases h

lemma token_ne (op : OpKind) : op.token ≠ .lParen ∧ op.token ≠ .more := by
  cases op <;> decide

lemma binary_spec (h : op.operands = 2) :
    op.isPrefix = false ∧ op.assignment = false ∧ 0 < op.left ∧ op.left < kUnaryPrio := by
  revert h
  cases op <;> decide

lemma left_le (op : OpKind) : op.left ≤ kUnaryPrio := by
  cases op <;> decide

def Open (t : Expr) : Prop :=
  ∀ limit rest res, limit < kUnaryPrio → t.isBelow (limit + 1) = false → rest.head? ≠ some .lParen →
    (∀ op, getPostfixOp rest = some op → t.isBelow op.left = false) →
    Continues limit t (getPostfixOp rest) rest res → Parses limit (print t ++ rest) res

def Whole (t : Expr) : Prop :=
  ∀ rest, rest.head? ≠ some .lParen → getPostfixOp rest = none → ∃ receiver,
    Parses 0 (print t ++ rest) (t, receiver, rest)

lemma Open.whole (h : Open t) (hpos : t.isBelow 1 = false) : Whole t := by
  intro rest hrest hnone
  refine ⟨some none, h 0 rest _ (by decide) hpos hrest (by simp [hnone]) ?_⟩
  rw [hnone]
  exact continues_stop nofun

lemma print_head (ht : Printable t) : (print t ++ rest).head? ≠ some .more := by
  induction ht generalizing rest with
  | ident name => simp [print]
  | pre op e hop _ _ _ => simp [print, hop, (token_ne op).2]
  | post op name hop => rcases hop with rfl | rfl <;> simp [print, OpKind.isPrefix]
  | binary op l r _ _ _ ihl _ =>
    simp only [print, append_assoc]
    cases l.isBelow op.left with
    | true => simp [paren]
    | false => exact ihl

lemma Whole.reads (h : Whole t) (ht : Printable t) (hrest : rest.head? ≠ some .lParen) :
    Reads (.lParen :: print t ++ [.rParen] ++ rest) (t, rest) := by
  obtain ⟨receiver, hp⟩ := h (.rParen :: rest) (by simp) rfl
  have htoks : .lParen :: print t ++ [.rParen] ++ rest =
      .lParen :: (print t ++ .rParen :: rest) := by simp
  rw [htoks]
  exact reads_paren (print_head ht) hrest hp

lemma parses_operand (ho : Open t) (hw : Whole t) (ht : Printable t) {b : Bool}
    (hlimit : limit < kUnaryPrio) (hb : b = false → t.isBelow (limit + 1) = false ∧ ∀ op,
      getPostfixOp rest = some op → t.isBelow op.left = false)
    (hrest : rest.head? ≠ some .lParen) (h : Continues limit t (getPostfixOp rest) rest res) :
    Parses limit (paren b (print t) ++ rest) res := by
  cases b with
  | false => exact ho limit rest res hlimit (hb rfl).1 hrest (hb rfl).2 h
  | true => exact parses_primary rfl (hw.reads ht hrest) h

lemma open_binary (h2 : op.operands = 2) (hl : Open l) (hlw : Whole l) (hlp : Printable l)
    (hr : Open r) (hrw : Whole r) (hrp : Printable r) : Open (.binary op l r) := by
  intro limit rest res hlimit habove hrest hnext hcont
  obtain ⟨hpre, ha, -, htop⟩ := binary_spec h2
  have hop : limit < op.left := by simpa [Expr.isBelow] using habove
  have hnext' (o : OpKind) (ho : getPostfixOp rest = some o) : o.left ≤ op.left := by
    simpa [Expr.isBelow] using hnext o ho
  have htoks : print (.binary op l r) ++ rest =
      paren (l.isBelow op.left) (print l) ++
      (op.token :: (paren (r.isBelow (op.left + 1)) (print r) ++ rest)) := by
    simp [print]
  have hlow {p q : ℕ} {e : Expr} (hpq : p ≤ q) (h : e.isBelow q = false) : e.isBelow p = false := by
    cases e <;> simp_all [Expr.isBelow]
    omega
  rw [htoks]
  refine parses_operand hl hlw hlp hlimit (fun hb => ⟨hlow hop hb, ?_⟩)
    (by simpa using (token_ne op).1) ?_
  · rw [getPostfixOp_token hpre]
    rintro o ho
    cases ho
    exact hb
  · rw [getPostfixOp_token hpre]
    refine continues_binary hop h2 ha ?_ hcont
    rw [tail_cons]
    refine parses_operand hr hrw hrp htop (fun hb => ⟨hb, fun o ho => hlow ?_ hb⟩) hrest
      (continues_stop fun o ho => hnext' o ho)
    exact (hnext' o ho).trans (Nat.le_succ _)

def Prefixed (t : Expr) : Prop :=
  ∀ limit rest, rest.head? ≠ some .lParen → Parses limit (print t ++ rest) (t, none, rest)

lemma prefixed_pre (hop : op.isPrefix = true) (ha : op.assignment = false) (ht : Printable t)
    (hw : t.isPre = false → Whole t) (hp : t.isPre = true → Prefixed t) :
    Prefixed (.unary op t) := by
  intro limit rest hrest
  have hstop : Continues kUnaryPrio t (getPostfixOp rest) rest (t, some (getPostfixOp rest),
      rest) :=
    continues_stop fun o _ => left_le o
  have hoperand : ∃ receiver, Parses kUnaryPrio (paren (!(t.isIdent || t.isPre)) (print t) ++ rest)
      (t, receiver, rest) := by
    cases hpre : t.isPre with
    | true =>
      rw [Bool.or_true]
      exact ⟨none, hp hpre kUnaryPrio rest hrest⟩
    | false =>
      cases hid : t.isIdent with
      | true =>
        cases t with
        | ident name => exact ⟨_, parses_primary rfl (reads_ident name hrest) hstop⟩
        | _ => cases hid
      | false => exact ⟨_, parses_primary rfl ((hw hpre).reads ht hrest) hstop⟩
  obtain ⟨receiver, hoperand⟩ := hoperand
  simp only [print, hop, if_true, cons_append]
  exact parses_pre (getPrefixOp_token hop) ha hoperand

lemma Prefixed.whole (h : Prefixed t) : Whole t := fun rest hrest _ => ⟨none, h 0 rest hrest⟩

lemma isBelow_one (ht : Printable t) : t.isBelow 1 = false := by
  cases ht with
  | binary op l r h2 _ _ =>
    have := (binary_spec h2).2.2.1
    simp only [Expr.isBelow, decide_eq_false_iff_not]
    omega
  | _ => rfl

lemma parses_print (ht : Printable t) (hc : Clean t) :
    (t.isPre = false → Open t) ∧ (t.isPre = true → Prefixed t) := by
  induction ht with
  | ident name =>
    refine ⟨fun _ limit rest res _ _ hrest _ hcont => ?_, nofun⟩
    exact parses_primary rfl (reads_ident name hrest) hcont
  | pre op e hop ha he ih =>
    obtain ⟨ho, hp⟩ := ih hc
    refine ⟨fun h => absurd hop (by simp_all [Expr.isPre]), fun _ => ?_⟩
    exact prefixed_pre hop ha he (fun hpre => (ho hpre).whole (isBelow_one he)) hp
  | post op name hop =>
    have hop' : op.isPrefix = false ∧ op.operands = 1 ∧ op.left = kUnaryPrio := by
      rcases hop with rfl | rfl <;> decide
    refine ⟨fun _ limit rest res hlimit _ hrest _ hcont => ?_,
      fun h => absurd h (by simp [Expr.isPre, hop'.1])⟩
    have htoks : print (.unary op (.ident name)) ++ rest =
        .identifier name :: op.token :: rest := by simp [print, hop'.1]
    rw [htoks]
    refine parses_primary rfl (reads_ident name (by simpa using (token_ne op).1)) ?_
    rw [getPostfixOp_token hop'.1]
    exact continues_post (hop'.2.2 ▸ hlimit) hop'.2.1 rfl hcont
  | binary op l r h2 hl hr ihl ihr =>
    obtain ⟨hlpre, hrpre, hlc, hrc⟩ := hc
    have hlo := (ihl hlc).1 hlpre
    have hro := (ihr hrc).1 hrpre
    refine ⟨fun _ => ?_, nofun⟩
    exact open_binary h2 hlo (hlo.whole (isBelow_one hl)) hl hro (hro.whole (isBelow_one hr)) hr

lemma roundTrips_of_clean (ht : Printable t) (hc : Clean t) : RoundTrips t := by
  have hw : Whole t := by
    cases hpre : t.isPre with
    | true => exact ((parses_print ht hc).2 hpre).whole
    | false => exact ((parses_print ht hc).1 hpre).whole (isBelow_one ht)
  obtain ⟨receiver, fuel, h⟩ := hw [] (by simp) rfl
  rw [append_nil] at h
  exact ⟨fuel, receiver, h⟩

end Climbing

section Parentheses

def needed : Expr → ℕ
  | .unary op e => needed e + if op.isPrefix && !(e.isIdent || e.isPre) then 1 else 0
  | .binary op l r =>
    needed l + needed r + (if l.isPre || l.isBelow op.left then 1 else 0) + if r.isPre ||
      r.isBelow (op.left + 1) then 1 else 0
  | _ => 0

def opened (toks : List Token) : ℕ := toks.count .lParen

def Loose (limit : ℕ) : Expr → Prop
  | .ident _ => True
  | .unary op _ => op.isPrefix = false ∧ limit < kUnaryPrio
  | .binary op _ _ => limit < op.left
  | _ => False

variable {t e e' : Expr} {toks rest : List Token} {op : OpKind}

lemma opened_tail (toks : List Token) : opened toks.tail ≤ opened toks := by
  cases toks with
  | nil => exact le_rfl
  | cons tok toks => exact count_le_count_cons

lemma opened_lParen (toks : List Token) : opened (.lParen :: toks) = opened toks + 1 :=
  count_cons_self

lemma opened_cons {tok : Token} (h : tok ≠ .lParen) (toks : List Token) :
    opened (tok :: toks) = opened toks :=
  count_cons_of_ne h

lemma matchRParen_spec (h : matchRParen e toks = some (e', rest)) :
    e' = e ∧ toks = .rParen :: rest := by
  unfold matchRParen parseSuffixed at h
  split at h
  · split_ifs at h
    cases h
    exact ⟨rfl, rfl⟩
  · cases h

lemma getPostfixOp_isPrefix (h : getPostfixOp toks = some op) : op.isPrefix = false := by
  unfold getPostfixOp at h
  split at h <;> cases h <;> rfl

structure Bounds (fuel : ℕ) : Prop where
  expression : ∀ limit toks e receiver rest, parseExpression fuel limit toks =
    some (e, receiver, rest) →
    needed e + opened rest ≤ opened toks ∧
    (needed e + 1 + opened rest ≤ opened toks ∨ receiver = none ∧ e.isPre = true ∨ receiver ≠ none ∧
      Loose limit e) ∧
    ∀ o op, receiver = some o → o = some op → op.isPrefix = false ∧ op.left ≤ limit
  operators : ∀ n limit e o toks e' receiver rest, parseOperators fuel limit e o toks =
    some (e', receiver, rest) →
    needed e + opened toks ≤ n →
    needed e + 1 + opened toks ≤ n ∨ Loose limit e ∧
    (∀ op, o = some op → e.isBelow op.left = false) →
    (∀ op, o = some op → op.isPrefix = false) →
    needed e' + opened rest ≤ n ∧ (needed e' + 1 + opened rest ≤ n ∨ Loose limit e') ∧
    receiver ≠ none ∧
    ∀ o op, receiver = some o → o = some op → op.isPrefix = false ∧ op.left ≤ limit
  primary : ∀ toks e rest, parsePrimary fuel toks = some (e, rest) →
    needed e + opened rest ≤ opened toks ∧
    (needed e + 1 + opened rest ≤ opened toks ∨ e.isIdent = true)

lemma Loose.not_isPre {limit : ℕ} (h : Loose limit e) : e.isPre = false := by
  cases e with
  | unary op e => exact h.1
  | _ => rfl

lemma Loose.not_isBelow {limit p : ℕ} (h : Loose limit e) (hp : p ≤ limit + 1) :
    e.isBelow p = false := by
  cases e with
  | binary op l r =>
    have hlt : limit < op.left := h
    simp only [Expr.isBelow, decide_eq_false_iff_not]
    omega
  | _ => rfl

lemma Loose.isIdent (h : Loose kUnaryPrio e) : e.isIdent = true := by
  cases e with
  | ident name => rfl
  | unary op e => exact absurd h.2 (lt_irrefl _)
  | binary op l r => exact absurd h (not_lt.mpr (left_le op))
  | _ => cases h

lemma bounds_operators {fuel : ℕ} (ih : Bounds fuel) {n limit : ℕ} {o : Option OpKind}
    {receiver : Option (Option OpKind)} (h : parseOperators (fuel + 1) limit e o toks =
      some (e', receiver, rest)) (hn : needed e + opened toks ≤ n)
    (hloose : needed e + 1 + opened toks ≤ n ∨ Loose limit e ∧ ∀ op, o = some op →
      e.isBelow op.left = false)
    (ho : ∀ op, o = some op → op.isPrefix = false) :
    needed e' + opened rest ≤ n ∧ (needed e' + 1 + opened rest ≤ n ∨ Loose limit e') ∧
      receiver ≠ none ∧
      ∀ o op, receiver = some o → o = some op → op.isPrefix = false ∧ op.left ≤ limit := by
  cases o with
  | none =>
    cases h
    exact ⟨hn, hloose.imp_right And.left, nofun, by rintro _ _ ⟨⟩ ⟨⟩⟩
  | some op =>
    have hop := ho op rfl
    have htail := opened_tail toks
    rw [parseOperators] at h
    split_ifs at h with hlimit hassign hone
    · refine ih.operators n _ _ _ _ _ _ _ h ?_
        (.inr ⟨⟨hop, hlimit.trans_le (left_le op)⟩, fun _ _ => rfl⟩)
        fun _ => getPostfixOp_isPrefix
      simp only [needed, hop, Bool.false_and, Bool.false_eq_true, if_false, add_zero]
      omega
    · split at h
      · next rhs next rest' heq =>
        obtain ⟨hr, hshape, hends⟩ := ih.expression _ _ _ _ _ heq
        have hlhs : needed e + (if e.isPre || e.isBelow op.left then 1 else 0) + opened toks ≤
            n := by
          rcases hloose with hpaid | ⟨hl, hb⟩
          · split_ifs <;> omega
          · simpa [hl.not_isPre, hb op rfl] using hn
        have hrhs : needed rhs + (if rhs.isPre || rhs.isBelow (op.left + 1) then 1 else 0) +
            opened rest' ≤ opened toks := by
          rcases hshape with hpaid | ⟨hnone, -⟩ | ⟨-, hl⟩
          · split_ifs <;> omega
          · cases hnone
          · simp only [hl.not_isPre, hl.not_isBelow (p := op.left + 1) le_rfl, Bool.or_self,
              Bool.false_eq_true, if_false]
            omega
        refine ih.operators n _ _ _ _ _ _ _ h ?_ (.inr ⟨hlimit, fun o ho => ?_⟩) fun o ho =>
          (hends _ o rfl ho).1
        · simp only [needed]
          omega
        · have := (hends _ o rfl ho).2
          simpa [Expr.isBelow, OpKind.right] using this
      · cases h
    · cases h
      refine ⟨hn, hloose.imp_right And.left, nofun, ?_⟩
      rintro _ _ ⟨⟩ ⟨⟩
      exact ⟨hop, not_lt.mp hlimit⟩

lemma bounds (fuel : ℕ) : Bounds fuel := by
  induction fuel with
  | zero => exact ⟨nofun, nofun, nofun⟩
  | succ fuel ih =>
    refine ⟨fun limit toks e receiver rest h => ?_, fun n limit e o toks e' receiver rest h =>
      bounds_operators ih h, fun toks e rest h => ?_⟩
    · rw [parseExpression] at h
      split at h
      · next op hop =>
        split at h
        · next operand recv rest' heq =>
          split_ifs at h
          cases h
          obtain ⟨hb, hshape, -⟩ := ih.expression _ _ _ _ _ heq
          have htail := opened_tail toks
          have hpre : op.isPrefix = true := by
            unfold getPrefixOp at hop
            split at hop <;> cases hop <;> rfl
          refine ⟨?_, .inr (.inl ⟨rfl, hpre⟩), nofun⟩
          have hone : needed operand + (if !(operand.isIdent || operand.isPre) then 1 else 0) +
              opened rest ≤ opened toks.tail := by
            rcases hshape with hpaid | ⟨-, hp⟩ | ⟨-, hl⟩
            · split_ifs <;> omega
            · simpa [hp] using hb
            · simpa [hl.isIdent] using hb
          simp only [needed, hpre, Bool.true_and]
          omega
        · cases h
      · split at h
        · next expr rest' heq =>
          obtain ⟨hb, hshape⟩ := ih.primary _ _ _ heq
          have hident (hid : expr.isIdent = true) :
              Loose limit expr ∧ ∀ op, getPostfixOp rest' = some op → expr.isBelow op.left =
                false := by
            cases expr with
            | ident name => exact ⟨trivial, fun _ _ => rfl⟩
            | _ => cases hid
          obtain ⟨h1, h2, h3, h4⟩ :=
            ih.operators (opened toks) _ _ _ _ _ _ _ h hb (hshape.imp_right hident)
            fun _ => getPostfixOp_isPrefix
          exact ⟨h1, h2.imp_right fun hl => .inr ⟨h3, hl⟩, h4⟩
        · cases h
    · unfold parsePrimary at h
      split at h
      · unfold parseSuffixed at h
        split_ifs at h
        cases h
        exact ⟨by rw [opened_cons (by simp)]; exact (zero_add _).le, .inr rfl⟩
      · next toks' =>
        obtain ⟨⟨value, recv, rest'⟩, hp, hm⟩ := bind_eq_some_iff.mp h
        obtain ⟨rfl, rfl⟩ := matchRParen_spec hm
        have hvalue := (ih.expression _ _ _ _ _ hp).1
        have hle : needed (.pairAdd value) + 1 + opened rest ≤
            opened (.lParen :: .more :: .rArrow :: toks') := by
          rw [opened_cons (by simp)] at hvalue
          rw [opened_lParen, opened_cons (by simp), opened_cons (by simp)]
          simp only [needed]
          omega
        exact ⟨by omega, .inl hle⟩
      · next toks' _ =>
        obtain ⟨⟨expr, recv, rest'⟩, hp, hm⟩ := bind_eq_some_iff.mp h
        have hexpr := (ih.expression _ _ _ _ _ hp).1
        have hle : needed e + 1 + opened rest ≤ opened (.lParen :: toks') := by
          dsimp only at hm
          split at hm
          · obtain ⟨⟨value, recv', rest''⟩, hp', hm⟩ := bind_eq_some_iff.mp hm
            obtain ⟨rfl, rfl⟩ := matchRParen_spec hm
            have hvalue := (ih.expression _ _ _ _ _ hp').1
            rw [opened_cons (by simp)] at hvalue hexpr
            rw [opened_lParen]
            simp only [needed]
            omega
          · obtain ⟨rfl, rfl⟩ := matchRParen_spec hm
            rw [opened_cons (by simp)] at hexpr
            rw [opened_lParen]
            omega
        exact ⟨by omega, .inl hle⟩
      · cases h

lemma opened_append (toks rest : List Token) : opened (toks ++ rest) = opened toks + opened rest :=
  count_append

lemma opened_paren (b : Bool) (toks : List Token) :
    opened (paren b toks) = opened toks + if b then 1 else 0 := by
  cases b with
  | false => rfl
  | true => simp [paren, opened]

lemma opened_operand (t : Expr) (p : ℕ) :
    (if t.isBelow p then 1 else 0) ≤ (if t.isPre || t.isBelow p then 1 else 0) ∧
      (t.isPre = true → (if t.isBelow p then 1 else 0) < if t.isPre || t.isBelow p then 1
        else 0) := by
  cases t with
  | unary op e => cases hop : op.isPrefix <;> simp [Expr.isPre, Expr.isBelow, hop]
  | _ => simp [Expr.isPre]

lemma opened_print (ht : Printable t) :
    opened (print t) ≤ needed t ∧ (¬Clean t → opened (print t) < needed t) := by
  induction ht with
  | ident name => exact ⟨by simp [print, opened, needed], fun h => absurd trivial h⟩
  | pre op e hop _ _ ih =>
    simp only [print, hop, if_true, opened_cons (token_ne op).1, opened_paren, needed,
      Bool.true_and, Clean]
    exact ⟨by omega, fun hc => by have := ih.2 hc; omega⟩
  | post op name hop =>
    refine ⟨?_, fun h => absurd trivial h⟩
    rcases hop with rfl | rfl <;> simp [print, opened, needed, OpKind.isPrefix, OpKind.token]
  | binary op l r _ _ _ ihl ihr =>
    simp only [print, opened_append, opened_cons (token_ne op).1, opened_paren, needed, Clean]
    have hl := opened_operand l op.left
    have hr := opened_operand r (op.left + 1)
    refine ⟨by omega, fun hc => ?_⟩
    by_cases hlc : Clean l
    · by_cases hrc : Clean r
      · by_cases hlp : l.isPre = true
        · have := hl.2 hlp
          omega
        · by_cases hrp : r.isPre = true
          · have := hr.2 hrp
            omega
          · exact absurd ⟨by simpa using hlp, by simpa using hrp, hlc, hrc⟩ hc
      · have := ihr.2 hrc
        omega
    · have := ihl.2 hlc
      omega

lemma clean_of_roundTrips (ht : Printable t) (h : RoundTrips t) : Clean t := by
  obtain ⟨fuel, receiver, h⟩ := h
  by_contra hc
  have hneeded := ((bounds fuel).expression _ _ _ _ _ h).1
  have hopened := (opened_print ht).2 hc
  omega

/-- Printing and parsing gives the tree back exactly when no operand of a binary operator has a
prefix operator. -/
theorem roundTrips_iff_clean (t : Expr) (ht : Printable t) : RoundTrips t ↔ Clean t :=
  ⟨clean_of_roundTrips ht, roundTrips_of_clean ht⟩

theorem roundTrips_iff_clean_product :
    RoundTrips (.binary .mul (.binary .add (.ident "a") (.unary .incrementPost (.ident "b")))
      (.binary .add (.ident "c") (.ident "d"))) ∧
        RoundTrips (.unary .minus (.unary .not (.binary .or (.ident "a") (.ident "b")))) := by
  refine ⟨(roundTrips_iff_clean _ ?_).mpr ?_,
    (roundTrips_iff_clean _ ?_).mpr ⟨rfl, rfl, trivial, trivial⟩⟩
  · exact .binary _ _ _ rfl (.binary _ _ _ rfl (.ident _) (.post _ _ (.inl rfl)))
      (.binary _ _ _ rfl (.ident _) (.ident _))
  · exact ⟨rfl, rfl, ⟨rfl, rfl, trivial, trivial⟩, rfl, rfl, trivial, trivial⟩
  · exact .pre _ _ rfl rfl (.pre _ _ rfl rfl (.binary _ _ _ rfl (.ident _) (.ident _)))

/-- After `- a` in `- a + b` nothing more is consumed. -/
theorem minus_sum_left :
    parseExpression 9 0 (print (.binary .add (.unary .minus (.ident "a")) (.ident "b"))) =
        some (.unary .minus (.ident "a"), none, [.plus, .identifier "b"]) ∧
      ¬RoundTrips (.binary .add (.unary .minus (.ident "a")) (.ident "b")) := by
  refine ⟨by decide +kernel, fun h => ?_⟩
  have hc := clean_of_roundTrips (.binary _ _ _ rfl (.pre _ _ rfl rfl (.ident _)) (.ident _)) h
  exact absurd hc.1 (by decide)

end Parentheses

end Mai.LangExpression
