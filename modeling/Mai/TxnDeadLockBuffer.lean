import Mai.RunInvariant

/-!
# The history of deadlocks

`DeadLockInfoBuffer` (`txn/transaction-lock-mgr.cc`) keeps the latest paths in a ring. Whether it
has wrapped around is seen from the path at the write index, which is empty if it has not. An access
outside of the buffer has no result.
-/
namespace Mai.TxnDeadLockBuffer

open RunInvariant List Option

variable {P : Type*}

structure Buffer (P : Type*) where
  pathsBuffer : List (Option P)
  bufferIdx : ℕ

namespace Buffer

def new (n : ℕ) : Buffer P := ⟨List.replicate n none, 0⟩

def addNewPath (b : Buffer P) (path : P) : Option (Buffer P) :=
  if b.pathsBuffer = [] then some b
  else if b.bufferIdx < b.pathsBuffer.length then
    some ⟨b.pathsBuffer.set b.bufferIdx (some path), (b.bufferIdx + 1) % b.pathsBuffer.length⟩
  else none

def normalize (b : Buffer P) : Option (List (Option P)) :=
  if b.pathsBuffer = [] then some []
  else (b.pathsBuffer[b.bufferIdx]?).map fun
    | none => b.pathsBuffer.take b.bufferIdx
    | some _ => b.pathsBuffer.rotate b.bufferIdx

def resize (b : Buffer P) (size : ℕ) : Option (Buffer P) :=
  b.normalize.map fun paths =>
    if size < paths.length then ⟨paths.drop (paths.length - size), 0⟩
    else ⟨paths ++ List.replicate (size - paths.length) none, paths.length⟩

def prepareBuffer (b : Buffer P) : Option (List (Option P)) := b.normalize.map List.reverse

end Buffer

inductive Op (P : Type*)
  | addNewPath (path : P)
  | resize (size : ℕ)

structure State (P : Type*) where
  buffer : Buffer P
  size : ℕ
  held : List P

def step (s : State P) : Op P → Option (State P)
  | .addNewPath path => (s.buffer.addNewPath path).map fun b =>
    ⟨b, s.size, (s.held ++ [path]).drop (s.held.length + 1 - s.size)⟩
  | .resize size => (s.buffer.resize size).map fun b =>
    ⟨b, size, s.held.drop (s.held.length - size)⟩

def initial (n : ℕ) : State P := ⟨.new n, n, []⟩

structure Listed (s : State P) : Prop where
  prepareBuffer : s.buffer.prepareBuffer = some (s.held.reverse.map some)
  bound : s.held.length ≤ s.size
  inside : ∀ path, s.buffer.addNewPath path ≠ none

def Loose (s : State P) : Op P → Prop
  | .addNewPath _ => True
  | .resize size => size = 0 ∨ size ≠ s.held.length

instance decidableLoose (s : State P) : (op : Op P) → Decidable (Loose s op)
  | .addNewPath _ => inferInstanceAs (Decidable True)
  | .resize size => inferInstanceAs (Decidable (size = 0 ∨ size ≠ s.held.length))

section Layout

variable {s t : State P} {b : Buffer P} {held : List P} {size : ℕ} {path : P}

inductive Layout : Buffer P → ℕ → List P → Prop
  | empty : Layout ⟨[], 0⟩ 0 []
  | filling (held : List P) (room : ℕ) :
    Layout ⟨held.map some ++ List.replicate (room + 1) none, held.length⟩ (held.length + (room + 1))
      held
  | full (newer older : List P) (first : P) :
    Layout ⟨newer.map some ++ some first :: older.map some,
      newer.length⟩ (newer.length + (older.length + 1))
      (first :: older ++ newer)

lemma layout_replicate (held : List P) (room : ℕ) (h : held = [] ∨ 0 < room) :
    Layout ⟨held.map some ++ List.replicate room none, held.length⟩ (held.length + room) held := by
  cases room with
  | zero =>
    rcases h with rfl | h
    · exact .empty
    · exact absurd h (Nat.lt_irrefl 0)
  | succ room => exact .filling held room

lemma layout_full (held : List P) : Layout ⟨held.map some, 0⟩ held.length held := by
  cases held with
  | nil => exact .empty
  | cons first older =>
    have h := Layout.full [] older first
    simpa using h

lemma Layout.normalize (h : Layout b size held) : b.normalize = some (held.map some) := by
  cases h with
  | empty => rfl
  | filling held room => simp [Buffer.normalize]
  | full newer older first =>
    have hrotate := rotate_append_length_eq (newer.map some) (some first :: older.map some)
    rw [length_map] at hrotate
    simp [Buffer.normalize, hrotate]

lemma addNewPath_eq (l : List P) (x : Option P) (r : List (Option P)) (path : P) :
    (⟨l.map some ++ x :: r, l.length⟩ : Buffer P).addNewPath path =
      some ⟨(l ++ [path]).map some ++ r, if r = [] then 0 else (l ++ [path]).length⟩ := by
  have hset : (l.map some ++ x :: r).set l.length (some path) = (l ++ [path]).map some ++ r := by
    simp
  have hlen : (l.map some ++ x :: r).length = l.length + 1 + r.length := by
    simp
    omega
  have hidx : (l.length + 1) % (l.length + 1 + r.length) = if r = [] then 0
      else (l ++ [path]).length := by
    split_ifs with h
    · rw [h, length_nil, Nat.add_zero, Nat.mod_self]
    · rw [length_append, length_singleton]
      exact Nat.mod_eq_of_lt (Nat.lt_add_of_pos_right (length_pos_iff.mpr h))
  rw [Buffer.addNewPath, if_neg (by simp), if_pos (by dsimp only; omega)]
  dsimp only
  rw [hset, hlen, hidx]

lemma Layout.addNewPath (h : Layout b size held) (path : P) :
    ∃ b', b.addNewPath path = some b' ∧
      Layout b' size ((held ++ [path]).drop (held.length + 1 - size)) := by
  cases h with
  | empty => exact ⟨_, rfl, by simpa using Layout.empty⟩
  | filling held room =>
    refine ⟨_, addNewPath_eq held none (List.replicate room none) path, ?_⟩
    rw [Nat.sub_eq_zero_of_le (by omega), drop_zero]
    cases room with
    | zero =>
      have h := layout_full (held ++ [path])
      simpa using h
    | succ room =>
      have h := Layout.filling (held ++ [path]) room
      rw [length_append, length_singleton, Nat.add_assoc, Nat.add_comm 1] at h
      rwa [if_neg (by simp), length_append, length_singleton]
  | full newer older first =>
    refine ⟨_, addNewPath_eq newer (some first) (older.map some) path, ?_⟩
    have hdrop : (first :: older ++ newer).length + 1 - (newer.length + (older.length + 1)) =
        1 := by
      simp
      omega
    rw [hdrop, cons_append, cons_append, drop_succ_cons, drop_zero, append_assoc]
    cases older with
    | nil =>
      have h := layout_full (newer ++ [path])
      simpa using h
    | cons second older =>
      have h := Layout.full (newer ++ [path]) older second
      rw [length_append, length_singleton, Nat.add_assoc, Nat.add_comm 1] at h
      rwa [if_neg (by simp), length_append, length_singleton]

lemma Layout.resize (h : Layout b size held) {n : ℕ} (hn : n = 0 ∨ n ≠ held.length) :
    ∃ b', b.resize n = some b' ∧ Layout b' n (held.drop (held.length - n)) := by
  refine ⟨_, by rw [Buffer.resize, h.normalize, map_some], ?_⟩
  rw [length_map]
  split_ifs with hlt
  · have hfull := layout_full (held.drop (held.length - n))
    rw [List.length_drop, Nat.sub_sub_self hlt.le] at hfull
    rwa [map_drop] at hfull
  · have hfilling := layout_replicate held (n - held.length) (by
      rcases hn with rfl | hn
      · exact .inl (length_eq_zero_iff.mp (by omega))
      · exact .inr (by omega))
    rw [Nat.add_sub_cancel' (not_lt.mp hlt)] at hfilling
    rwa [Nat.sub_eq_zero_of_le (not_lt.mp hlt), drop_zero]

lemma Layout.length_le (h : Layout b size held) : held.length ≤ size := by
  cases h with
  | empty => exact le_rfl
  | filling held room => exact Nat.le_add_right _ _
  | full newer older first => simp; omega

lemma listed_of_layout (h : Layout s.buffer s.size s.held) : Listed s := by
  refine ⟨?_, h.length_le, fun path => ?_⟩
  · rw [Buffer.prepareBuffer, h.normalize, map_some, map_reverse]
  · obtain ⟨b', hb, -⟩ := h.addNewPath path
    rw [hb]
    exact some_ne_none b'

lemma layout_step (op : Op P) (hc : Loose s op) (h : Layout s.buffer s.size s.held)
    (hs : step s op = some t) :
    Layout t.buffer t.size t.held := by
  cases op with
  | addNewPath path =>
    obtain ⟨b', hb, h'⟩ := h.addNewPath path
    rw [step, hb] at hs
    cases hs
    exact h'
  | resize n =>
    obtain ⟨b', hb, h'⟩ := h.resize hc
    rw [step, hb] at hs
    cases hs
    exact h'

lemma loose_of_listed (op : Op P) (h : Layout s.buffer s.size s.held) (hs : step s op = some t)
    (ht : Listed t) :
    Loose s op := by
  cases op with
  | addNewPath path => trivial
  | resize n =>
    by_contra hn
    obtain ⟨hpos, hlen⟩ := not_or.mp hn
    obtain ⟨path, hpath⟩ := exists_mem_of_length_pos (Nat.pos_of_ne_zero (not_not.mp hlen ▸ hpos))
    rw [step, Buffer.resize, h.normalize, not_not.mp hlen] at hs
    cases hs
    refine ht.inside path ?_
    simp [Buffer.addNewPath, ne_nil_of_mem hpath]

end Layout

/-- The paths are listed in every state of a run exactly when no `Resize` is to the number of paths
that are held. -/
theorem listed_iff_loose (n : ℕ) (ops : List (Op P)) :
    Always step Listed (initial n) ops ↔ EachStep step Loose (initial n) ops := by
  refine always_iff_of_broken (fun s hs => listed_of_layout hs)
    (fun s op t hc hs ht => layout_step op hc hs ht)
    (fun s op t hs ht hP => loose_of_listed op hs ht hP) ?_
  have h := layout_replicate ([] : List P) n (.inl rfl)
  rwa [length_nil, Nat.zero_add] at h

/-- A resize to the number of paths leaves an index outside of the buffer. -/
theorem resize_loses_index : ¬Always step Listed (initial 1) [.addNewPath true, .resize 1] := by
  intro h
  have hlisted := h _ _ (prefix_refl _) rfl
  exact hlisted.inside true rfl

end Mai.TxnDeadLockBuffer
