import Mai.BaseAlign
import Mai.RunInvariant

/-!
# Handle scopes

A machine hands out slots for handles from a buffer that nested scopes share (`lang/machine.cc`). A
scope that outgrows it moves its slots to a buffer of its own. An address is a block of `malloc` and
an offset in it.
-/
namespace Mai.LangHandleScope

open BaseAlign RunInvariant Function List

structure Address where
  block : ℕ
  offset : ℕ
  deriving DecidableEq

def kHandleBufferSize : ℕ := 1024

structure HandleScopeSlot where
  block : ℕ
  base : ℕ
  end_ : ℕ
  limit : ℕ
  handed : List Address

structure Machine where
  allocated : ℕ → Option ℕ
  fresh : ℕ
  slots : List HandleScopeSlot

def new : Machine where
  allocated := update (fun _ => none) 0 (some kHandleBufferSize)
  fresh := 1
  slots := [⟨0, 0, 0, kHandleBufferSize, []⟩]

def pointers (block base n : ℕ) : List Address := (List.range n).map fun i => ⟨block, base + 8 * i⟩

def HandleScopeSlot.growedSize (x : HandleScopeSlot) : ℕ :=
  roundUp (x.limit - x.base) kHandleBufferSize + kHandleBufferSize

def HandleScopeSlot.advance (x : HandleScopeSlot) (n : ℕ) : HandleScopeSlot :=
  { x with end_ := x.end_ + 8 * n, handed := x.handed ++ pointers x.block x.end_ n }

def HandleScopeSlot.grow (x : HandleScopeSlot) (block : ℕ) : HandleScopeSlot :=
  { x with block := block, base := 0, end_ := x.end_ - x.base, limit := x.growedSize }

inductive Op
  | enterHandleScope
  | advanceHandleSlots (n : ℕ)
  | exitHandleScope

def step (s : Machine) : Op → Option Machine
  | .enterHandleScope =>
    match s.slots with
    | [] => none
    | prev :: rest =>
      some { s with slots := ⟨prev.block, prev.end_, prev.end_, prev.limit, []⟩ :: prev :: rest }
  | .advanceHandleSlots n =>
    match s.slots with
    | [] => none
    | top :: rest =>
      if n = 0 then some s
      else if top.limit ≤ top.end_ + 8 * n then
        some ⟨update s.allocated s.fresh (some top.growedSize), s.fresh + 1,
        (top.grow s.fresh).advance n :: rest⟩
      else some { s with slots := top.advance n :: rest }
  | .exitHandleScope =>
    match s.slots with
    | top :: prev :: rest =>
      if (prev.block, prev.limit) ≠ (top.block, top.limit) ∧
        (top.limit - top.base) % kHandleBufferSize = 0 then
        -- only the start of a block can be freed
        if top.base = 0 then
          some { s with allocated := update s.allocated top.block none, slots := prev :: rest }
        else none
      else some { s with slots := prev :: rest }
    | _ => none

def visitRoot (s : Machine) : List Address :=
  s.slots.flatMap fun x => pointers x.block x.base ((x.end_ - x.base) / 8)

def Apart (a b : Address) : Prop :=
  a.block = b.block → a.offset + 8 ≤ b.offset ∨ b.offset + 8 ≤ a.offset

def Machine.handed (s : Machine) : List Address := s.slots.flatMap HandleScopeSlot.handed

structure Visible (s : Machine) : Prop where
  inside : ∀ a ∈ s.handed, ∃ size, s.allocated a.block = some size ∧ a.offset + 8 ≤ size
  disjoint : s.handed.Pairwise Apart
  visited : ∀ a ∈ s.handed, a ∈ visitRoot s

def Careful (s : Machine) : Op → Prop
  | .advanceHandleSlots n => ∀ top ∈ s.slots.head?,
    n = 0 ∨ top.end_ + 8 * n < top.limit ∨ (top.end_ = top.base ∧ 8 * n ≤ top.growedSize)
  | _ => True

section Pointers

variable {block base n : ℕ} {a : Address}

lemma mem_pointers : a ∈ pointers block base n ↔ a.block = block ∧ ∃ i < n,
    a.offset = base + 8 * i := by
  rw [pointers, List.mem_map]
  constructor
  · rintro ⟨i, hi, rfl⟩
    exact ⟨rfl, i, mem_range.mp hi, rfl⟩
  · rintro ⟨rfl, i, hi, ho⟩
    exact ⟨i, mem_range.mpr hi, by rw [← ho]⟩

lemma pointers_append (block base n m : ℕ) :
    pointers block base n ++ pointers block (base + 8 * n) m = pointers block base (n + m) := by
  simp [pointers, range_add, Nat.mul_add, Nat.add_assoc, comp_def]

lemma pointers_pairwise (block base n : ℕ) : (pointers block base n).Pairwise Apart := by
  refine pairwise_map.mpr (pairwise_lt_range.imp fun {i j} hij _ => .inl ?_)
  dsimp only
  omega

end Pointers

section Invariant

structure Filled (s : Machine) (x : HandleScopeSlot) : Prop where
  fresh : x.block < s.fresh
  handed : ∃ n, x.handed = pointers x.block x.base n ∧ x.end_ = x.base + 8 * n
  end_le : x.end_ ≤ x.limit
  inside : ∃ size, s.allocated x.block = some size ∧ x.limit ≤ size

def Nested (x y : HandleScopeSlot) : Prop :=
  y.block < x.block ∨ (x.block = y.block ∧ y.end_ ≤ x.base ∧ x.limit = y.limit)

structure Inv (s : Machine) : Prop where
  filled : ∀ x ∈ s.slots, Filled s x
  nested : s.slots.Pairwise Nested
  starts : s.slots.IsChain fun x y => x.block ≠ y.block → x.base = 0

variable {s t : Machine} {x y : HandleScopeSlot} {a : Address} {rest : List HandleScopeSlot} {n : ℕ}

lemma Filled.bounds (h : Filled s x) (ha : a ∈ x.handed) :
    a.block = x.block ∧ x.base ≤ a.offset ∧ a.offset + 8 ≤ x.end_ := by
  obtain ⟨n, hn, hend⟩ := h.handed
  rw [hn, mem_pointers] at ha
  obtain ⟨hblock, i, hi, hoffset⟩ := ha
  exact ⟨hblock, by omega, by omega⟩

lemma Inv.visible (h : Inv s) : Visible s where
  inside a ha := by
    obtain ⟨x, hx, ha⟩ := mem_flatMap.mp ha
    obtain ⟨hblock, -, hend⟩ := (h.filled x hx).bounds ha
    obtain ⟨size, hsize, hlimit⟩ := (h.filled x hx).inside
    exact ⟨size, hblock ▸ hsize, hend.trans ((h.filled x hx).end_le.trans hlimit)⟩
  disjoint := by
    refine pairwise_flatMap.mpr
      ⟨fun x hx => ?_, h.nested.imp_of_mem fun {x y} hx hy hxy a ha b hb hblock => ?_⟩
    · obtain ⟨n, hn, -⟩ := (h.filled x hx).handed
      rw [hn]
      exact pointers_pairwise ..
    · obtain ⟨hax, hlow, -⟩ := (h.filled x hx).bounds ha
      obtain ⟨hby, -, hhigh⟩ := (h.filled y hy).bounds hb
      rcases hxy with hlt | ⟨-, hle, -⟩
      · omega
      · exact .inr (by omega)
  visited a ha := by
    obtain ⟨x, hx, ha⟩ := mem_flatMap.mp ha
    obtain ⟨n, hn, hend⟩ := (h.filled x hx).handed
    refine mem_flatMap.mpr ⟨x, hx, ?_⟩
    rw [hend, Nat.add_sub_cancel_left, Nat.mul_div_cancel_left _ (by decide), ← hn]
    exact ha

lemma Filled.advance (h : Filled s x) (hn : x.end_ + 8 * n ≤ x.limit) : Filled s (x.advance n) where
  fresh := h.fresh
  handed := by
    obtain ⟨k, hk, hend⟩ := h.handed
    refine ⟨k + n, ?_, ?_⟩
    · rw [HandleScopeSlot.advance, hk, hend, pointers_append]
    · rw [HandleScopeSlot.advance, hend]
      ring
  end_le := hn
  inside := h.inside

lemma Filled.congr (h : Filled s x) (hfresh : s.fresh ≤ t.fresh)
    (hblock : t.allocated x.block = s.allocated x.block) :
    Filled t x where
  fresh := h.fresh.trans_le hfresh
  handed := h.handed
  end_le := h.end_le
  inside := hblock ▸ h.inside

lemma Filled.base_le (h : Filled s x) : x.base ≤ x.end_ := by
  obtain ⟨n, -, hend⟩ := h.handed
  omega

lemma Filled.handed_eq_nil (h : Filled s x) (hempty : x.end_ = x.base) : x.handed = [] := by
  obtain ⟨n, hn, hend⟩ := h.handed
  obtain rfl : n = 0 := by omega
  exact hn

lemma inv_new : Inv new where
  filled x hx := by
    obtain rfl := mem_singleton.mp hx
    exact ⟨by decide, ⟨0, rfl, rfl⟩, by decide, _, rfl, le_rfl⟩
  nested := pairwise_singleton ..
  starts := isChain_singleton _

lemma inv_enter (h : Inv s) (hslots : s.slots = x :: rest) :
    Inv { s with slots := ⟨x.block, x.end_, x.end_, x.limit, []⟩ :: x :: rest } := by
  obtain ⟨hfilled, hnested, hstarts⟩ := h
  rw [hslots] at hfilled hnested hstarts
  have hx := hfilled x mem_cons_self
  refine ⟨fun y hy => ?_, pairwise_cons.mpr ⟨fun y hy => ?_, hnested⟩,
    isChain_cons_cons.mpr ⟨fun h => absurd rfl h, hstarts⟩⟩
  · rcases mem_cons.mp hy with rfl | hy
    · exact ⟨hx.fresh, ⟨0, rfl, rfl⟩, hx.end_le, hx.inside⟩
    · exact (hfilled y hy).congr le_rfl rfl
  · rcases mem_cons.mp hy with rfl | hy
    · exact .inr ⟨rfl, le_rfl, rfl⟩
    · rcases (pairwise_cons.mp hnested).1 y hy with hlt | ⟨heq, hle, hlimit⟩
      · exact .inl hlt
      · exact .inr ⟨heq, hle.trans hx.base_le, hlimit⟩

lemma inv_advance (h : Inv s) (hslots : s.slots = x :: rest) (hn : x.end_ + 8 * n < x.limit) :
    Inv { s with slots := x.advance n :: rest } := by
  obtain ⟨hfilled, hnested, hstarts⟩ := h
  rw [hslots] at hfilled hnested hstarts
  obtain ⟨houter, hrest⟩ := pairwise_cons.mp hnested
  refine ⟨fun y hy => ?_, pairwise_cons.mpr ⟨houter, hrest⟩, ?_⟩
  · rcases mem_cons.mp hy with rfl | hy
    · exact ((hfilled x mem_cons_self).advance hn.le).congr le_rfl rfl
    · exact (hfilled y (mem_cons_of_mem x hy)).congr le_rfl rfl
  · cases rest with
    | nil => exact isChain_singleton _
    | cons y rest => exact isChain_cons_cons.mpr (isChain_cons_cons.mp hstarts)

lemma inv_grow (h : Inv s) (hslots : s.slots = x :: rest) (hempty : x.end_ = x.base)
    (hn : 8 * n ≤ x.growedSize) :
    Inv ⟨update s.allocated s.fresh (some x.growedSize), s.fresh + 1,
      (x.grow s.fresh).advance n :: rest⟩ := by
  obtain ⟨hfilled, hnested, hstarts⟩ := h
  rw [hslots] at hfilled hnested hstarts
  have hzero : x.end_ - x.base = 0 := by omega
  have hgrown : Filled ⟨update s.allocated s.fresh (some x.growedSize), s.fresh + 1,
      []⟩ (x.grow s.fresh) :=
    ⟨Nat.lt_succ_self _, ⟨0, (hfilled x mem_cons_self).handed_eq_nil hempty, hzero⟩,
      by simp [HandleScopeSlot.grow, hzero], _, update_self .., le_rfl⟩
  refine ⟨fun y hy => ?_, pairwise_cons.mpr ⟨fun y hy => ?_, (pairwise_cons.mp hnested).2⟩, ?_⟩
  · rcases mem_cons.mp hy with rfl | hy
    · refine (hgrown.advance ?_).congr le_rfl rfl
      simpa [HandleScopeSlot.grow, hzero] using hn
    · have hy := hfilled y (mem_cons_of_mem x hy)
      exact hy.congr (Nat.le_succ _) (update_of_ne hy.fresh.ne _ _)
  · exact .inl (hfilled y (mem_cons_of_mem x hy)).fresh
  · cases rest with
    | nil => exact isChain_singleton _
    | cons y rest => exact isChain_cons_cons.mpr ⟨fun _ => rfl, (isChain_cons_cons.mp hstarts).2⟩

lemma inv_exit (h : Inv s) (hslots : s.slots = x :: y :: rest) :
    Inv { s with slots := y :: rest } := by
  obtain ⟨hfilled, hnested, hstarts⟩ := h
  rw [hslots] at hfilled hnested hstarts
  exact ⟨fun z hz => (hfilled z (mem_cons_of_mem x hz)).congr le_rfl rfl,
    (pairwise_cons.mp hnested).2, (isChain_cons_cons.mp hstarts).2⟩

lemma inv_free (h : Inv s) (hslots : s.slots = x :: y :: rest)
    (hlimit : (y.block, y.limit) ≠ (x.block, x.limit)) :
    Inv { s with allocated := update s.allocated x.block none, slots := y :: rest } := by
  have hnested := h.nested
  rw [hslots, pairwise_cons, pairwise_cons] at hnested
  have hlt : y.block < x.block := by
    rcases hnested.1 y mem_cons_self with hlt | ⟨heq, -, hl⟩
    · exact hlt
    · exact absurd (by rw [heq, hl]) hlimit
  have hother : ∀ z ∈ y :: rest, z.block ≠ x.block := fun z hz => by
    rcases mem_cons.mp hz with rfl | hz
    · exact hlt.ne
    · rcases hnested.2.1 z hz with h | ⟨h, -⟩ <;> omega
  obtain ⟨hfilled, hnested, hstarts⟩ := inv_exit h hslots
  exact ⟨fun z hz => (hfilled z hz).congr le_rfl (update_of_ne (hother z hz) _ _), hnested, hstarts⟩

theorem inv_step {op : Op} (hcareful : Careful s op) (h : Inv s) (hstep : step s op = some t) :
    Inv t := by
  cases op with
  | enterHandleScope =>
    rcases hslots : s.slots with _ | ⟨x, rest⟩ <;> simp only [step, hslots, reduceCtorEq,
      Option.some.injEq] at hstep
    exact hstep ▸ inv_enter h hslots
  | advanceHandleSlots n =>
    rcases hslots : s.slots with _ | ⟨x, rest⟩ <;> simp only [step, hslots, reduceCtorEq] at hstep
    have hx := hcareful x (by rw [hslots]; rfl)
    split_ifs at hstep with hzero hgrow
    · exact Option.some.inj hstep ▸ h
    · rw [← Option.some.inj hstep]
      obtain ⟨hempty, hn⟩ : x.end_ = x.base ∧ 8 * n ≤ x.growedSize := by omega
      exact inv_grow h hslots hempty hn
    · rw [← Option.some.inj hstep]
      exact inv_advance h hslots (by omega)
  | exitHandleScope =>
    rcases hslots : s.slots with _ | ⟨x, _ | ⟨y, rest⟩⟩ <;> simp only [step, hslots,
      reduceCtorEq] at hstep
    split_ifs at hstep with hlimit hbase
    · exact Option.some.inj hstep ▸ inv_free h hslots hlimit.1
    · exact Option.some.inj hstep ▸ inv_exit h hslots

end Invariant

lemma empty_of_visited {s : Machine} {x : HandleScopeSlot} {rest : List HandleScopeSlot} (h : Inv s)
    (hslots : s.slots = x :: rest) {allocated : ℕ → Option ℕ} {fresh n : ℕ}
    (hvisible : Visible ⟨allocated, fresh, (x.grow s.fresh).advance n :: rest⟩) :
    x.end_ = x.base := by
  have hx := h.filled x (by rw [hslots]; exact mem_cons_self)
  obtain ⟨k, hk, hend⟩ := hx.handed
  by_contra hne
  have hmem : (⟨x.block, x.base⟩ : Address) ∈ x.handed := by
    rw [hk, mem_pointers]
    exact ⟨rfl, 0, by omega, rfl⟩
  obtain ⟨z, hz, hvisited⟩ := mem_flatMap.mp (hvisible.visited ⟨x.block, x.base⟩
    (mem_flatMap.mpr ⟨_, mem_cons_self, mem_append_left _ hmem⟩))
  obtain ⟨hblock, i, hi, hoffset⟩ := mem_pointers.mp hvisited
  dsimp only at hblock hoffset
  rcases mem_cons.mp hz with rfl | hz
  · exact hx.fresh.ne hblock
  · have hnested := h.nested
    rw [hslots] at hnested
    rcases (pairwise_cons.mp hnested).1 z hz with hlt | ⟨-, hle, -⟩ <;> omega

lemma careful_of_visible {s t : Machine} {op : Op} (h : Inv s) (hstep : step s op = some t)
    (hvisible : Visible t) :
    Careful s op := by
  cases op with
  | advanceHandleSlots n =>
    rcases hslots : s.slots with _ | ⟨x, rest⟩ <;> simp only [step, hslots, reduceCtorEq] at hstep
    intro top htop
    obtain rfl : x = top := by simpa [hslots] using htop
    split_ifs at hstep with hzero hgrow
    · exact .inl hzero
    · rw [← Option.some.inj hstep] at hvisible
      have hempty := empty_of_visited h hslots hvisible
      have hlast : (⟨s.fresh, 8 * (n - 1)⟩ : Address) ∈ pointers s.fresh (x.end_ - x.base) n :=
        mem_pointers.mpr ⟨rfl, n - 1, by omega, by dsimp only; omega⟩
      obtain ⟨size, hsize, hle⟩ := hvisible.inside _
        (mem_flatMap.mpr ⟨_, mem_cons_self, mem_append_right _ hlast⟩)
      dsimp only at hsize hle
      rw [update_self, Option.some.injEq] at hsize
      exact .inr (.inr ⟨hempty, by omega⟩)
    · exact .inr (.inl (by omega))
  | enterHandleScope => trivial
  | exitHandleScope => trivial

/-- The collector sees every handle, at every moment of a run, exactly if slots are taken with care.
-/
theorem handles_visible_iff (ops : List Op) :
    Always step Visible new ops ↔ EachStep step Careful new ops :=
  always_iff_of_broken (fun _ => Inv.visible) (fun _ _ _ => inv_step)
    (fun _ _ _ => careful_of_visible) inv_new

/-- A handle is not visited after its scope has moved on to a new block. -/
theorem handle_not_visited :
    ¬ Always step Visible new [.enterHandleScope, .advanceHandleSlots 1,
      .advanceHandleSlots 127] := by
  intro h
  have hvisited := (h _ _ prefix_rfl rfl).visited ⟨0, 0⟩ (by decide)
  exact absurd hvisited (by decide)

end Mai.LangHandleScope
