import Mathlib

/-!
# Bytecode builder

Instructions are collected as nodes, jumps to labels that are not bound yet are patched when the
label is bound, and the nodes are packed into words at the end (`lang/bytecode-array-builder.h`,
`lang/bytecode.cc`).
-/
namespace Mai.LangBytecodeBuilder
open Function List

inductive BytecodeType
  | N | A | FA | AB
  deriving DecidableEq

abbrev BytecodeID := Fin 232

/-- The kinds of `kBytecodeDesc`, in the order of `DECLARE_ALL_BYTECODE`. -/
def kBytecodeKinds : List (ℕ × BytecodeType) :=
  [(5, .A), (1, .N), (1, .A), (2, .N), (15, .A), (15, .AB), (15, .A), (17, .AB), (28, .A),
    (40, .AB), (7, .A), (6, .AB), (4, .A), (54, .AB), (1, .N), (1, .A), (9, .AB), (1, .FA), (1, .A),
    (1, .N), (4, .AB), (1, .A), (1, .N), (1, .AB), (1, .N)]

def kindIn : List (ℕ × BytecodeType) → ℕ → BytecodeType
  | [], _ => .N
  | (n, k) :: rest, i => if i < n then k else kindIn rest (i - n)

def kind (id : BytecodeID) : BytecodeType := kindIn kBytecodeKinds id

/-- `BytecodeNode` with the two of its parameters that reach an instruction. -/
structure Node where
  id : BytecodeID
  a : ℤ
  b : ℤ
  deriving DecidableEq

def word (x : ℤ) : ℕ := (x % 2 ^ 32).toNat

namespace Node

def new (id : BytecodeID) (a b : ℤ) : Node :=
  match kind id with
  | .N => ⟨id, 0, 0⟩
  | .A => ⟨id, a, 0⟩
  | .FA | .AB => ⟨id, a, b⟩

def toInstr (n : Node) : ℕ :=
  match kind n.id with
  | .N => n.id.val <<< 24
  | .A => n.id.val <<< 24 ||| (word n.a &&& 0xffffff)
  | .FA => n.id.val <<< 24 ||| (word n.a &&& 0xff) <<< 16 ||| (word n.b &&& 0xffff)
  | .AB => n.id.val <<< 24 ||| (word n.a &&& 0xfff) <<< 12 ||| (word n.b &&& 0xfff)

def fromInstr (instr : ℕ) : Option Node :=
  if h : (instr &&& 0xff000000) >>> 24 < 232 then
    let id : BytecodeID := ⟨(instr &&& 0xff000000) >>> 24, h⟩
    match kind id with
    | .N => some ⟨id, 0, 0⟩
    | .A => some ⟨id, (instr &&& 0xffffff : ℕ), 0⟩
    | .FA => some ⟨id, ((instr &&& 0xff0000) >>> 16 : ℕ), (instr &&& 0xffff : ℕ)⟩
    | .AB => some ⟨id, ((instr &&& 0xfff000) >>> 12 : ℕ), (instr &&& 0xfff : ℕ)⟩
  else none

end Node

inductive JumpKind
  | jump | jumpIfTrue | jumpIfFalse

def JumpKind.backward : JumpKind → BytecodeID
  | .jump => 212
  | .jumpIfTrue => 214
  | .jumpIfFalse => 216

def JumpKind.forward : JumpKind → BytecodeID
  | .jump => 213
  | .jumpIfTrue => 215
  | .jumpIfFalse => 217

/-- The operand of a jump at `pc` to a label that is bound: the distance, or the label's own pc. -/
def JumpKind.operand (pc label : ℤ) : JumpKind → ℤ
  | .jump => pc - label
  | .jumpIfTrue => label
  | .jumpIfFalse => label

structure Label where
  pc : Option ℕ
  unlinkedNodes : List ℕ

structure Builder where
  nodes : List Node
  incomplete : List ℕ
  labels : ℕ → Label

inductive Op
  | add (id : BytecodeID) (a b : ℤ)
  | incomplete (id : BytecodeID) (a b : ℤ)
  | jump (k : JumpKind) (label : ℕ) (slot : ℤ)
  | bind (label : ℕ)

namespace Builder

def empty : Builder := ⟨[], [], fun _ => ⟨none, []⟩⟩

def pc (s : Builder) : ℕ := s.nodes.length

def add (s : Builder) (node : Node) : Builder := { s with nodes := s.nodes ++ [node] }

def jump (s : Builder) (k : JumpKind) (label : ℕ) (slot : ℤ) : Builder :=
  match (s.labels label).pc with
  | some q => s.add ⟨k.backward, slot, k.operand s.pc q⟩
  | none =>
    { s.add ⟨k.forward, slot, s.pc⟩ with
      labels := update s.labels label ⟨none, (s.labels label).unlinkedNodes ++ [s.pc]⟩ }

def link (pc : ℕ) (n : Node) : Node :=
  if n.id = 213 ∨ n.id = 215 ∨ n.id = 217 then { n with b := pc - n.b } else n

def bind (s : Builder) (label : ℕ) : Builder :=
  { s with
    nodes := (s.labels label).unlinkedNodes.foldl (fun nodes i => nodes.modify i (link s.pc))
      s.nodes
    labels := update s.labels label ⟨some s.pc, []⟩ }

def step (s : Builder) : Op → Builder
  | .add id a b => s.add (.new id a b)
  | .incomplete id a b => { s.add (.new id a b) with incomplete := s.incomplete ++ [s.pc] }
  | .jump k label slot => s.jump k label slot
  | .bind label => s.bind label

def run (ops : List Op) : Builder := ops.foldl step empty

lemma run_concat (ops : List Op) (op : Op) : run (ops ++ [op]) = (run ops).step op :=
  foldl_concat ..

def rewrite (callback : ℤ → ℤ) (n : Node) : Node := ⟨n.id, callback n.a, callback n.b⟩

def buildWithRewrite (callback : ℤ → ℤ) (s : Builder) : List ℕ :=
  (s.incomplete.foldl (fun nodes i => nodes.modify i (rewrite callback)) s.nodes).map Node.toInstr

end Builder

def target (pc : ℤ) (n : Node) : Option ℤ :=
  if n.id = 213 ∨ n.id = 215 ∨ n.id = 217 then some (pc + n.b)
  else if n.id = 212 ∨ n.id = 214 ∨ n.id = 216 then some (pc - n.b)
  else none

def Op.isAppend : Op → Bool
  | .bind _ => false
  | _ => true

def appended (ops : List Op) : List Op := ops.filter Op.isAppend

def boundAt (label : ℕ) : ℕ → List Op → Option ℕ
  | _, [] => none
  | pc, .bind l :: ops => if l = label then some pc else boundAt label pc ops
  | pc, .add .. :: ops | pc, .incomplete .. :: ops | pc,
      .jump .. :: ops => boundAt label (pc + 1) ops

def Op.binds : Op → Option ℕ
  | .bind label => some label
  | _ => none

structure WellLabelled (ops : List Op) : Prop where
  once : (ops.filterMap Op.binds).Nodup
  bound : ∀ k label slot, .jump k label slot ∈ ops → .bind label ∈ ops

def Meets (callback : ℤ → ℤ) (bound : ℕ → Option ℕ) (pc : ℕ) (n : Node) : Op → Prop
  | .add id a b => n = .new id a b
  | .incomplete id a b => n = .new id (callback a) (callback b)
  | .jump k label slot =>
    (n.id = k.forward ∨ n.id = k.backward) ∧ n.a = slot ∧ target pc n = (bound label).map Nat.cast
  | .bind _ => True

def Reaches (callback : ℤ → ℤ) (ops : List Op) : Prop :=
  ∃ decoded, ((Builder.run ops).buildWithRewrite callback).mapM Node.fromInstr = some decoded ∧
    decoded.length = (appended ops).length ∧
    ∀ pc n op, decoded[pc]? = some n → (appended ops)[pc]? = some op →
      Meets callback (fun label => boundAt label 0 ops) pc n op

def Fits (id : BytecodeID) (a b : ℤ) : Prop :=
  match kind id with
  | .N => True
  | .A => 0 ≤ a ∧ a < 2 ^ 24
  | .FA => (0 ≤ a ∧ a < 2 ^ 8) ∧ 0 ≤ b ∧ b < 2 ^ 16
  | .AB => (0 ≤ a ∧ a < 2 ^ 12) ∧ 0 ≤ b ∧ b < 2 ^ 12

/-- A jump fits with its slot and its distance, and a conditional jump back to a label bound at `q`
stands where its distance is `q` modulo the size of an operand. -/
def Near (callback : ℤ → ℤ) (bound : ℕ → Option ℕ) (pc : ℕ) : Op → Prop
  | .add id a b => Fits id a b
  | .incomplete id a b => Fits id (callback a) (callback b)
  | .jump k label slot =>
    (0 ≤ slot ∧ slot < 2 ^ 12) ∧ ∀ q, bound label = some q →
      if pc < q then q - pc < 2 ^ 12
      else match k with
        | .jump => pc - q < 2 ^ 12
        | .jumpIfTrue | .jumpIfFalse => pc - q = q % 2 ^ 12
  | .bind _ => True

def AllNear (callback : ℤ → ℤ) (ops : List Op) : Prop :=
  ∀ pc op, (appended ops)[pc]? = some op → Near callback (fun label => boundAt label 0 ops) pc op

section Words

lemma mask_shift (x w k : ℕ) : (x &&& ((2 ^ w - 1) <<< k)) >>> k = x / 2 ^ k % 2 ^ w := by
  rw [← Nat.and_two_pow_sub_one_eq_mod, ← Nat.shiftRight_eq_div_pow, Nat.shiftRight_and_distrib,
    Nat.shiftLeft_shiftRight]

lemma word_and (x : ℤ) {w : ℕ} (hw : w ≤ 32) : ((word x &&& (2 ^ w - 1) : ℕ) : ℤ) = x % 2 ^ w := by
  rw [Nat.and_two_pow_sub_one_eq_mod, word, Int.natCast_emod,
    Int.toNat_of_nonneg (Int.emod_nonneg _ (by positivity))]
  push_cast
  exact Int.emod_emod_of_dvd x (pow_dvd_pow 2 hw)

def Node.truncate (n : Node) : Node :=
  match kind n.id with
  | .N => ⟨n.id, 0, 0⟩
  | .A => ⟨n.id, n.a % 2 ^ 24, 0⟩
  | .FA => ⟨n.id, n.a % 2 ^ 8, n.b % 2 ^ 16⟩
  | .AB => ⟨n.id, n.a % 2 ^ 12, n.b % 2 ^ 12⟩

variable {id a b i j : ℕ}

lemma packed_one (ha : a < 2 ^ i) : id <<< i ||| a = id * 2 ^ i + a := by
  rw [← Nat.shiftLeft_add_eq_or_of_lt ha, Nat.shiftLeft_eq]

lemma packed_lt (ha : a < 2 ^ i) (hb : b < 2 ^ j) : a * 2 ^ j + b < 2 ^ (i + j) := by
  calc a * 2 ^ j + b < a * 2 ^ j + 2 ^ j := by omega
    _ = (a + 1) * 2 ^ j := by ring
    _ ≤ 2 ^ i * 2 ^ j := Nat.mul_le_mul_right _ ha
    _ = 2 ^ (i + j) := (pow_add 2 i j).symm

lemma packed_two (ha : a < 2 ^ i) (hb : b < 2 ^ j) :
    id <<< (i + j) ||| a <<< j ||| b = id * 2 ^ (i + j) + (a * 2 ^ j + b) := by
  rw [Nat.or_assoc, packed_one hb, packed_one (packed_lt ha hb)]

lemma fromInstr_packed {r : ℕ} (hid : id < 232) (hr : r < 2 ^ 24) :
    Node.fromInstr (id * 2 ^ 24 + r) = some
      (match kind ⟨id, hid⟩ with
      | .N => ⟨⟨id, hid⟩, 0, 0⟩
      | .A => ⟨⟨id, hid⟩, r, 0⟩
      | .FA => ⟨⟨id, hid⟩, (r / 2 ^ 16 : ℕ), (r % 2 ^ 16 : ℕ)⟩
      | .AB => ⟨⟨id, hid⟩, (r / 2 ^ 12 : ℕ), (r % 2 ^ 12 : ℕ)⟩) := by
  have hmask (w k : ℕ) := mask_shift (id * 2 ^ 24 + r) w k
  have hlow (w : ℕ) := Nat.and_two_pow_sub_one_eq_mod (id * 2 ^ 24 + r) w
  have hX : ((id * 2 ^ 24 + r) &&& 0xff000000) >>> 24 = id := (hmask 8 24).trans (by omega)
  have hA : (id * 2 ^ 24 + r) &&& 0xffffff = r := (hlow 24).trans (by omega)
  have hF : ((id * 2 ^ 24 + r) &&& 0xff0000) >>> 16 = r / 2 ^ 16 := (hmask 8 16).trans (by omega)
  have hFA : (id * 2 ^ 24 + r) &&& 0xffff = r % 2 ^ 16 := (hlow 16).trans (by omega)
  have hAB : ((id * 2 ^ 24 + r) &&& 0xfff000) >>> 12 = r / 2 ^ 12 := (hmask 12 12).trans (by omega)
  have hB : (id * 2 ^ 24 + r) &&& 0xfff = r % 2 ^ 12 := (hlow 12).trans (by omega)
  simp only [Node.fromInstr, hX, hA, hF, hFA, hAB, hB, dif_pos hid]
  cases kind ⟨id, hid⟩ <;> rfl

lemma and_lt (x w : ℕ) : x &&& (2 ^ w - 1) < 2 ^ w := by
  rw [Nat.and_two_pow_sub_one_eq_mod]
  exact Nat.mod_lt _ (by positivity)

lemma packed_div (hb : b < 2 ^ j) : (a * 2 ^ j + b) / 2 ^ j = a := by
  rw [mul_comm, Nat.mul_add_div (by positivity), Nat.div_eq_of_lt hb, add_zero]

lemma packed_mod (hb : b < 2 ^ j) : (a * 2 ^ j + b) % 2 ^ j = b := by
  rw [mul_comm, Nat.mul_add_mod, Nat.mod_eq_of_lt hb]

lemma fromInstr_toInstr (n : Node) : Node.fromInstr n.toInstr = some n.truncate := by
  obtain ⟨⟨id, hid⟩, a, b⟩ := n
  have ha (w : ℕ) := and_lt (word a) w
  have hb (w : ℕ) := and_lt (word b) w
  have hA (w : ℕ) := @word_and a w
  have hB (w : ℕ) := @word_and b w
  simp only [Node.toInstr, Node.truncate]
  cases hk : kind ⟨id, hid⟩ with
  | N =>
    have hX := fromInstr_packed hid (r := 0) (by positivity)
    rw [hk] at hX
    simpa only [Nat.shiftLeft_eq, add_zero] using hX
  | A =>
    have hX := fromInstr_packed hid (ha 24)
    rw [hk, ← packed_one (ha 24)] at hX
    exact hX.trans (by dsimp only; rw [hA 24 (by omega)])
  | FA =>
    have hX := fromInstr_packed hid (packed_lt (ha 8) (hb 16))
    rw [hk, ← packed_two (ha 8) (hb 16)] at hX
    exact hX.trans (by dsimp only; rw [packed_div (hb 16), packed_mod (hb 16), hA 8 (by omega),
      hB 16 (by omega)])
  | AB =>
    have hX := fromInstr_packed hid (packed_lt (ha 12) (hb 12))
    rw [hk, ← packed_two (ha 12) (hb 12)] at hX
    exact hX.trans (by dsimp only; rw [packed_div (hb 12), packed_mod (hb 12), hA 12 (by omega),
      hB 12 (by omega)])

end Words

section Building

variable {α : Type*}

lemma getElem?_foldl_modify (f : α → α) {positions : List ℕ} (h : positions.Nodup) (xs : List α)
    (p : ℕ) :
    (positions.foldl (fun xs i => xs.modify i f) xs)[p]? = if p ∈ positions then xs[p]?.map f
      else xs[p]? := by
  induction positions generalizing xs with
  | nil => simp
  | cons i positions ih =>
    obtain ⟨hi, h⟩ := nodup_cons.mp h
    rw [foldl_cons, ih h, getElem?_modify]
    by_cases hp : p = i
    · subst hp
      simp [hi]
    · simp [hp, Ne.symm hp]

lemma length_foldl_modify (f : α → α) (positions : List ℕ) (xs : List α) :
    (positions.foldl (fun xs i => xs.modify i f) xs).length = xs.length := by
  induction positions generalizing xs with
  | nil => rfl
  | cons i positions ih => rw [foldl_cons, ih, length_modify]

lemma appended_append (ops : List Op) (op : Op) :
    appended (ops ++ [op]) = appended ops ++ [op].filter Op.isAppend :=
  filter_append ..

lemma boundAt_append (label pc : ℕ) (ops : List Op) (op : Op) :
    boundAt label pc (ops ++ [op]) =
      (boundAt label pc ops).or (boundAt label (pc + (appended ops).length) [op]) := by
  induction ops generalizing pc with
  | nil => rfl
  | cons o ops ih =>
    cases o with
    | bind l =>
      simp only [cons_append, boundAt]
      split_ifs
      · rfl
      · exact ih pc
    | _ => exact (ih (pc + 1)).trans (by rw [add_assoc, add_comm 1]; rfl)

lemma boundAt_le {label pc q : ℕ} {ops : List Op} (h : boundAt label pc ops = some q) :
    q ≤ pc + (appended ops).length := by
  induction ops generalizing pc with
  | nil => cases h
  | cons o ops ih =>
    cases o with
    | bind l =>
      simp only [boundAt] at h
      split_ifs at h
      · cases h
        omega
      · exact ih h
    | _ =>
      have := ih h
      simp only [appended, filter_cons, Op.isAppend, if_true, length_cons] at this ⊢
      omega

lemma boundAt_eq_none {label pc : ℕ} {ops : List Op} :
    boundAt label pc ops = none ↔ .bind label ∉ ops := by
  induction ops generalizing pc with
  | nil => simp [boundAt]
  | cons o ops ih =>
    cases o with
    | bind l =>
      simp only [boundAt, mem_cons, Op.bind.injEq]
      split_ifs with hl
      · simp [hl]
      · rw [ih]
        simp [Ne.symm hl]
    | _ => simp [boundAt, ih]

def nodeAt (bound : ℕ → Option ℕ) (pc : ℕ) : Op → Node
  | .add id a b | .incomplete id a b => .new id a b
  | .jump k label slot =>
    match bound label with
    | none => ⟨k.forward, slot, pc⟩
    | some q => if q ≤ pc then ⟨k.backward, slot, k.operand pc q⟩ else ⟨k.forward, slot, q - pc⟩
  | .bind _ => .new 0 0 0

structure Built (ops : List Op) (s : Builder) : Prop where
  length : s.pc = (appended ops).length
  node : ∀ p op, (appended ops)[p]? = some op →
    s.nodes[p]? = some (nodeAt (fun label => boundAt label 0 ops) p op)
  bound : ∀ label, (s.labels label).pc = boundAt label 0 ops
  nodup : ∀ label, (s.labels label).unlinkedNodes.Nodup
  unlinked : ∀ label p, p ∈ (s.labels label).unlinkedNodes ↔
    boundAt label 0 ops = none ∧ ∃ k slot, (appended ops)[p]? = some (.jump k label slot)
  incompleteNodup : s.incomplete.Nodup
  incomplete : ∀ p, p ∈ s.incomplete ↔ ∃ id a b, (appended ops)[p]? = some (.incomplete id a b)

variable {ops : List Op} {s : Builder}

lemma getElem?_concat {xs : List α} {x y : α} {p : ℕ} :
    (xs ++ [x])[p]? = some y ↔ xs[p]? = some y ∨ p = xs.length ∧ x = y := by
  grind

lemma boundAt_append_of_isAppend {op : Op} (hop : op.isAppend = true) (label : ℕ) :
    boundAt label 0 (ops ++ [op]) = boundAt label 0 ops := by
  rw [boundAt_append]
  cases op <;> simp [boundAt, Op.isAppend] at hop ⊢

lemma appended_append_of_isAppend {op o : Op} (hop : op.isAppend = true) {p : ℕ} :
    (appended (ops ++ [op]))[p]? = some o ↔ (appended ops)[p]? = some o ∨
      p = (appended ops).length ∧ op = o := by
  rw [appended_append, filter_cons_of_pos hop, filter_nil, getElem?_concat]

lemma Built.append {op : Op} {s' : Builder} (h : Built ops s) (hop : op.isAppend = true)
    (hnodes : s'.nodes = s.nodes ++ [nodeAt (fun label => boundAt label 0 ops) s.pc op])
    (hpc : ∀ label, (s'.labels label).pc = (s.labels label).pc)
    (hnodup : ∀ label, (s'.labels label).unlinkedNodes.Nodup)
    (hunlinked : ∀ label p, p ∈ (s'.labels label).unlinkedNodes ↔
      p ∈ (s.labels label).unlinkedNodes ∨
      p = s.pc ∧ boundAt label 0 ops = none ∧ ∃ k slot, op = .jump k label slot)
    (hincomplete : s'.incomplete.Nodup)
    (hmem : ∀ p, p ∈ s'.incomplete ↔ p ∈ s.incomplete ∨ p = s.pc ∧ ∃ id a b,
      op = .incomplete id a b) :
    Built (ops ++ [op]) s' where
  length := by
    rw [Builder.pc, hnodes, appended_append, filter_cons_of_pos hop, length_append, length_append,
      ← h.length]
    rfl
  node p o ho := by
    rw [hnodes, getElem?_concat]
    simp only [boundAt_append_of_isAppend hop]
    rcases (appended_append_of_isAppend hop).mp ho with ho | ⟨rfl, rfl⟩
    · exact .inl (h.node p o ho)
    · exact .inr ⟨h.length.symm, by rw [h.length]⟩
  bound label := by rw [hpc, h.bound, boundAt_append_of_isAppend hop]
  nodup := hnodup
  unlinked label p := by
    rw [hunlinked, h.unlinked, boundAt_append_of_isAppend hop, h.length]
    simp only [appended_append_of_isAppend hop]
    grind
  incompleteNodup := hincomplete
  incomplete p := by
    rw [hmem, h.incomplete, h.length]
    simp only [appended_append_of_isAppend hop]
    grind

lemma Built.notMem_incomplete (h : Built ops s) : s.pc ∉ s.incomplete := by
  rw [h.incomplete, h.length]
  simp

lemma Built.notMem_unlinked (h : Built ops s) (label : ℕ) :
    s.pc ∉ (s.labels label).unlinkedNodes := by
  rw [h.unlinked, h.length]
  simp

lemma Built.jump (h : Built ops s) (k : JumpKind) (label : ℕ) (slot : ℤ) :
    Built (ops ++ [.jump k label slot]) (s.jump k label slot) := by
  have hpc := h.bound label
  unfold Builder.jump
  cases hb : (s.labels label).pc with
  | some q =>
    rw [hb] at hpc
    have hq : q ≤ s.pc := by
      have := boundAt_le hpc.symm
      rwa [h.length, ← zero_add (appended ops).length]
    refine h.append rfl ?_ (fun _ => rfl) h.nodup (fun l p => ?_) h.incompleteNodup fun p => ?_
    · simp [Builder.add, nodeAt, ← hpc, hq]
    · grind [Builder.add]
    · grind [Builder.add]
  | none =>
    rw [hb] at hpc
    have hnot := h.notMem_unlinked label
    have hnodup := h.nodup
    refine h.append rfl ?_ (fun l => ?_) (fun l => ?_) (fun l p => ?_) h.incompleteNodup fun p => ?_
    · simp [Builder.add, nodeAt, ← hpc]
    · by_cases hl : l = label
      · simp [hl, hb]
      · simp [hl]
    · by_cases hl : l = label
      · subst hl
        dsimp only
        rw [update_self]
        exact nodup_append.mpr ⟨hnodup l, nodup_singleton _, by grind⟩
      · simpa [hl] using hnodup l
    · by_cases hl : l = label
      · subst hl
        simp [← hpc]
      · simp [hl, Ne.symm hl]
    · simp [Builder.add]

lemma Built.bind (h : Built ops s) {label : ℕ} (hlabel : .bind label ∉ ops) :
    Built (ops ++ [.bind label]) (s.bind label) := by
  have hnone : boundAt label 0 ops = none := boundAt_eq_none.mpr hlabel
  have happ : appended (ops ++ [.bind label]) = appended ops := by
    rw [appended_append]
    exact append_nil _
  have hbound (l : ℕ) : boundAt l 0 (ops ++ [.bind label]) = if l = label then some s.pc
      else boundAt l 0 ops := by
    rw [boundAt_append, zero_add, ← h.length]
    by_cases hl : l = label
    · subst hl
      simp [hnone, boundAt]
    · simp [hl, Ne.symm hl, boundAt]
  have hlink (k : JumpKind) (slot b : ℤ) : Builder.link s.pc ⟨k.forward, slot, b⟩ =
      ⟨k.forward, slot, s.pc - b⟩ := by
    cases k <;> rfl
  constructor
  · rw [happ, ← h.length]
    exact length_foldl_modify ..
  · intro p op hop
    rw [happ] at hop
    have hnode := h.node p op hop
    simp only [hbound]
    rw [Builder.bind, getElem?_foldl_modify _ (h.nodup label), hnode]
    split_ifs with hp
    · obtain ⟨-, k, slot, hjump⟩ := (h.unlinked label p).mp hp
      cases hop.symm.trans hjump
      have hlt : p < s.pc := h.length ▸ (List.getElem?_eq_some_iff.mp hop).1
      simp [nodeAt, hnone, hlink, hlt.not_ge]
    · cases op with
      | jump k l slot =>
        have hl : l ≠ label := fun hl => hp ((h.unlinked label p).mpr ⟨hnone, k, slot, hl ▸ hop⟩)
        simp [nodeAt, hl]
      | _ => rfl
  · intro l
    rw [hbound, ← h.bound]
    by_cases hl : l = label <;> simp [Builder.bind, hl]
  · intro l
    by_cases hl : l = label
    · simp [Builder.bind, hl]
    · simpa [Builder.bind, hl] using h.nodup l
  · intro l p
    rw [hbound, happ]
    by_cases hl : l = label
    · simp [Builder.bind, hl]
    · simpa [Builder.bind, hl] using h.unlinked l p
  · exact h.incompleteNodup
  · rw [happ]
    exact h.incomplete

lemma built_run (honce : (ops.filterMap Op.binds).Nodup) : Built ops (Builder.run ops) := by
  induction ops using List.reverseRecOn with
  | nil => exact ⟨rfl, nofun, fun _ => rfl, fun _ => nodup_nil,
      by simp [Builder.run, Builder.empty, appended], nodup_nil,
      by simp [Builder.run, Builder.empty, appended]⟩
  | append_singleton ops op ih =>
    rw [filterMap_append, nodup_append] at honce
    have h := ih honce.1
    rw [Builder.run_concat]
    cases op with
    | add id a b =>
      exact h.append rfl rfl (fun _ => rfl) h.nodup (by simp [Builder.step, Builder.add])
        h.incompleteNodup
        (by simp [Builder.step, Builder.add])
    | incomplete id a b =>
      have hnot := h.notMem_incomplete
      refine h.append rfl rfl (fun _ => rfl) h.nodup (by simp [Builder.step, Builder.add]) ?_
        (by simp [Builder.step])
      exact nodup_append.mpr ⟨h.incompleteNodup, nodup_singleton _, by grind⟩
    | jump k label slot => exact h.jump k label slot
    | bind label =>
      refine h.bind fun hmem => honce.2.2 label (mem_filterMap.mpr ⟨_, hmem, rfl⟩) label ?_ rfl
      simp [Op.binds]

end Building

section Main

variable {ops : List Op} {callback : ℤ → ℤ} {bound : ℕ → Option ℕ} {p : ℕ} {op : Op}

def finalNode (callback : ℤ → ℤ) (bound : ℕ → Option ℕ) (p : ℕ) : Op → Node
  | .incomplete id a b => Builder.rewrite callback (.new id a b)
  | op => nodeAt bound p op

lemma emod_eq_self {x : ℤ} {w : ℕ} : x % 2 ^ w = x ↔ 0 ≤ x ∧ x < 2 ^ w := by
  constructor
  · intro h
    exact ⟨h ▸ Int.emod_nonneg _ (by positivity), h ▸ Int.emod_lt_of_pos _ (by positivity)⟩
  · rintro ⟨h0, h1⟩
    exact Int.emod_eq_of_lt h0 h1

lemma new_truncate_iff (id : BytecodeID) (a b : ℤ) :
    (Node.new id a b).truncate = .new id a b ↔ Fits id a b := by
  unfold Node.new Fits
  cases hk : kind id <;> simp only [Node.truncate, hk, Node.mk.injEq, true_and, and_true,
    emod_eq_self]

lemma rewrite_truncate (id : BytecodeID) (a b : ℤ) :
    (Builder.rewrite callback (.new id a b)).truncate =
      (Node.new id (callback a) (callback b)).truncate := by
  unfold Node.new Builder.rewrite
  cases hk : kind id <;> simp only [Node.truncate, hk]

lemma truncate_forward (k : JumpKind) (a b : ℤ) :
    (⟨k.forward, a, b⟩ : Node).truncate = ⟨k.forward, a % 2 ^ 12, b % 2 ^ 12⟩ := by
  have hk : kind k.forward = .AB := by cases k <;> decide
  simp only [Node.truncate, hk]

lemma truncate_backward (k : JumpKind) (a b : ℤ) :
    (⟨k.backward, a, b⟩ : Node).truncate = ⟨k.backward, a % 2 ^ 12, b % 2 ^ 12⟩ := by
  have hk : kind k.backward = .AB := by cases k <;> decide
  simp only [Node.truncate, hk]

lemma target_forward (k : JumpKind) (pc a b : ℤ) : target pc ⟨k.forward, a, b⟩ = some (pc + b) := by
  cases k <;> rfl

lemma target_backward (k : JumpKind) (pc a b : ℤ) :
    target pc ⟨k.backward, a, b⟩ = some (pc - b) := by
  cases k <;> rfl

lemma operand_reaches (k : JumpKind) {q : ℕ} (hq : q ≤ p) :
    (p : ℤ) - k.operand p q % 2 ^ 12 = q ↔
      match k with
      | .jump => p - q < 2 ^ 12
      | .jumpIfTrue | .jumpIfFalse => p - q = q % 2 ^ 12 := by
  cases k <;> simp only [JumpKind.operand] <;> omega

lemma meets_iff (hbound : ∀ k label slot, op = .jump k label slot → bound label ≠ none) :
    Meets callback bound p (finalNode callback bound p op).truncate op ↔
      Near callback bound p op := by
  cases op with
  | add id a b => exact new_truncate_iff id a b
  | incomplete id a b =>
    simp only [finalNode, Meets, rewrite_truncate, Near]
    exact new_truncate_iff id _ _
  | bind label => exact Iff.rfl
  | jump k label slot =>
    obtain ⟨q, hq⟩ := Option.ne_none_iff_exists'.mp (hbound k label slot rfl)
    simp only [finalNode, nodeAt, Meets, Near, hq, Option.map_some, Option.some.injEq, forall_eq']
    split_ifs with hle hlt hlt
    · omega
    · simp only [truncate_backward, target_backward, or_true, true_and, emod_eq_self,
        Option.some.injEq, operand_reaches k hle]
    · simp only [truncate_forward, target_forward, true_or, true_and, emod_eq_self,
        Option.some.injEq]
      exact and_congr_right fun _ => by omega
    · omega

lemma decode_nodes (nodes : List Node) :
    (nodes.map Node.toInstr).mapM Node.fromInstr = some (nodes.map Node.truncate) := by
  induction nodes with
  | nil => rfl
  | cons n nodes ih =>
    rw [map_cons, mapM_cons, fromInstr_toInstr, ih]
    rfl

lemma final_nodes (honce : (ops.filterMap Op.binds).Nodup) (hop : (appended ops)[p]? = some op) :
    ((Builder.run ops).incomplete.foldl (fun nodes i => nodes.modify i (Builder.rewrite callback))
      (Builder.run ops).nodes)[p]? =
      some (finalNode callback (fun label => boundAt label 0 ops) p op) := by
  have h := built_run honce
  rw [getElem?_foldl_modify _ h.incompleteNodup, h.node p op hop]
  split_ifs with hp
  · obtain ⟨id, a, b, hinc⟩ := (h.incomplete p).mp hp
    cases hop.symm.trans hinc
    rfl
  · cases op with
    | incomplete id a b => exact absurd ((h.incomplete p).mpr ⟨id, a, b, hop⟩) hp
    | _ => rfl

/-- The instructions decode to what was appended, with every jump reaching its label, exactly when
the parameters and the distances fit their operands and every conditional jump backwards stands
where its distance is the label's own pc. -/
theorem reaches_iff_near (callback : ℤ → ℤ) (ops : List Op) (h : WellLabelled ops) :
    Reaches callback ops ↔ AllNear callback ops := by
  have hlength := (built_run h.once).length
  have hbound (op : Op) (hop : op ∈ appended ops) (k : JumpKind) (label : ℕ) (slot : ℤ)
      (hjump : op = .jump k label slot) :
      boundAt label 0 ops ≠ none :=
    fun hnone => boundAt_eq_none.mp hnone (h.bound k label slot (hjump ▸ mem_of_mem_filter hop))
  simp only [Reaches, Builder.buildWithRewrite, decode_nodes, Option.some.injEq, exists_eq_left',
    AllNear]
  constructor
  · rintro ⟨-, hmeets⟩ p op hop
    refine (meets_iff (hbound op (mem_of_getElem? hop))).mp (hmeets p _ op ?_ hop)
    rw [getElem?_map, final_nodes h.once hop]
    rfl
  · intro hnear
    refine ⟨?_, fun p n op hn hop => ?_⟩
    · rw [length_map, length_foldl_modify]
      exact hlength
    · rw [getElem?_map, final_nodes h.once hop] at hn
      cases hn
      exact (meets_iff (hbound op (mem_of_getElem? hop))).mpr (hnear p op hop)

theorem reaches_iff_near_loop :
    Reaches id [.jump .jumpIfFalse 0 0, .bind 1, .add 0 3 0, .incomplete 0 8 0, .jump .jump 1 5,
      .bind 0] := by
  refine (reaches_iff_near _ _ ⟨by decide, by simp; omega⟩).mpr fun p op hop => ?_
  have hkind : kind 0 = .A := rfl
  rcases p with _ | _ | _ | _ | p <;> cases hop
  · exact ⟨by decide, by simp [boundAt]⟩
  · simp [Near, Fits, hkind]
  · simp [Near, Fits, hkind]
  · exact ⟨by decide, by simp [boundAt]⟩

/-- A backward jump with a condition lands elsewhere. -/
theorem jumpIfTrue_misses :
    let ops : List Op := [.bind 0, .add 0 3 0, .add 0 4 0, .jump .jumpIfTrue 0 0]
    WellLabelled ops ∧ ¬Reaches id ops ∧
      (((Builder.run ops).buildWithRewrite id).mapM Node.fromInstr).map
      (fun decoded => decoded[2]?.map (target 2)) =
        some (some (some 2)) := by
  refine ⟨⟨by decide, by simp; omega⟩, ?_, by decide +kernel⟩
  rintro ⟨decoded, hdecoded, -, hmeets⟩
  have hrun : ((Builder.run [.bind 0, .add 0 3 0, .add 0 4 0,
      .jump .jumpIfTrue 0 0]).buildWithRewrite id).mapM Node.fromInstr =
      some [⟨0, 3, 0⟩, ⟨0, 4, 0⟩, ⟨214, 0, 0⟩] := by decide +kernel
  cases hdecoded.symm.trans hrun
  exact absurd (hmeets 2 ⟨214, 0, 0⟩ (.jump .jumpIfTrue 0 0) rfl rfl).2.2 (by decide)

end Main

end Mai.LangBytecodeBuilder
