import Mai.LangChannel

/-!
# What the collector visits of a channel

`Channel::Iterate` goes through the ring buffer and the held object. `IterateObject` does not
call it for an empty buffer, and neither looks at the requests of waiting senders. Of a buffer
that has wrapped around without being full the free cells are visited too, and twice.
-/
namespace Mai.LangChannelTrace

open LangChannel RingBuffer RunInvariant List

variable {C A : Type*}

structure RefChannel (C A : Type*) where
  channel : Channel C (Option A)
  hold : Option A

inductive Slot
  | cell (i : ℕ)
  | hold
  | request (i : ℕ)
  deriving DecidableEq

def new (capacity : UInt32) (memory : ℕ → Option A) : RefChannel C A :=
  ⟨Channel.new capacity memory, none⟩

def sendAny (ch : RefChannel C A) (co : C) (any : Option A) : RefChannel C A where
  channel := { ch.channel with sent := ch.channel.sent ++ [any] }.sendNoBarrier co any
  hold := if ch.channel.capacity = 0 then any else ch.hold

def step [DecidableEq C] (ch : RefChannel C A) : Action C (Option A) → Option (RefChannel C A)
  | .send co any => if ch.channel.isWaiting co then none else some (sendAny ch co any)
  | .recv co => if ch.channel.isWaiting co then none
      else some { ch with channel := ch.channel.recv co }

/-- The cells that `VisitPointers(elems + first, elems + last)` visits. -/
def cells (first last : ℕ) : List Slot := (List.range' first (last - first)).map .cell

def visitHold (ch : RefChannel C A) : List Slot := if ch.hold.isSome then [.hold] else []

def iterate (ch : RefChannel C A) : List Slot :=
  (if 0 < ch.channel.length then
    if ch.channel.start < ch.channel.end_ then
      cells ch.channel.start.toNat ch.channel.end_.toNat
    else cells 0 ch.channel.start.toNat ++ cells ch.channel.end_.toNat ch.channel.capacity.toNat
  else []) ++ visitHold ch

def iterateObject (ch : RefChannel C A) : List Slot :=
  if 0 < ch.channel.length then iterate ch else []

def occupied (ch : RefChannel C A) : List ℕ :=
  elements ch.channel.capacity.toNat ch.channel.start.toNat ch.channel.length.toNat id

def holding (ch : RefChannel C A) : List Slot :=
  (occupied ch).map .cell ++ visitHold ch ++ (List.range ch.channel.sendQueue.length).map .request

def Traced (ch : RefChannel C A) : Prop := (iterateObject ch).Perm (holding ch)

def ReadsValue (ch : RefChannel C A) : Action C (Option A) → Prop
  | .send _ _ => True
  | .recv _ => ch.channel.capacity = 0 ∨ 0 < ch.channel.length

structure Plain (ch : RefChannel C A) : Prop where
  noSender : ch.channel.sendQueue = []
  noHold : ch.channel.length = 0 → ch.hold = none
  unwrapped : 0 < ch.channel.length →
    ch.channel.start < ch.channel.end_ ∨ ch.channel.length = ch.channel.capacity

structure Inv (ch : Channel C (Option A)) : Prop where
  ring : Ring ch
  buffered : ch.delivered ++ ch.values = ch.accepted

section Visits

variable {ch : RefChannel C A}

lemma end_cases (hring : Ring ch.channel) (hpos : 0 < ch.channel.length) :
    ch.channel.start.toNat < ch.channel.capacity.toNat
      ∧ (ch.channel.end_.toNat = ch.channel.start.toNat + ch.channel.length.toNat
          ∧ ch.channel.start.toNat + ch.channel.length.toNat < ch.channel.capacity.toNat
        ∨ ch.channel.end_.toNat + ch.channel.capacity.toNat
            = ch.channel.start.toNat + ch.channel.length.toNat
          ∧ ch.channel.end_.toNat ≤ ch.channel.start.toNat) := by
  have hle := UInt32.le_iff_toNat_le.mp hring.bounded
  have hlt := UInt32.lt_iff_toNat_lt.mp
    (hring.start (UInt32.pos_iff_ne_zero.mp (UInt32.lt_of_lt_of_le hpos hring.bounded)))
  have hend := hring.end_
  refine ⟨hlt, ?_⟩
  by_cases hwrap : ch.channel.start.toNat + ch.channel.length.toNat < ch.channel.capacity.toNat
  · rw [Nat.mod_eq_of_lt hwrap] at hend
    exact .inl ⟨hend, hwrap⟩
  · rw [Nat.mod_eq_sub_mod (not_lt.mp hwrap), Nat.mod_eq_of_lt (by omega)] at hend
    exact .inr ⟨by omega, by omega⟩

lemma occupied_nodup (hring : Ring ch.channel) : (occupied ch).Nodup := by
  have hle := UInt32.le_iff_toNat_le.mp hring.bounded
  refine List.Nodup.map_on (fun i hi j hj heq => ?_) nodup_range
  by_contra hne
  rcases Nat.lt_or_gt_of_ne hne with hlt | hlt
  · exact slot_ne hlt ((mem_range.mp hj).trans_le hle) heq
  · exact slot_ne hlt ((mem_range.mp hi).trans_le hle) heq.symm

lemma occupied_straight (hring : Ring ch.channel) (hpos : 0 < ch.channel.length)
    (hlt : ch.channel.start < ch.channel.end_) :
    (occupied ch).map Slot.cell = cells ch.channel.start.toNat ch.channel.end_.toNat := by
  have hlt' := UInt32.lt_iff_toNat_lt.mp hlt
  obtain ⟨-, ⟨hend, hbound⟩ | ⟨-, hle⟩⟩ := end_cases hring hpos
  · rw [cells, hend, Nat.add_sub_cancel_left, range'_eq_map_range, occupied, elements]
    refine congrArg (List.map Slot.cell) (map_congr_left fun i hi => ?_)
    exact Nat.mod_eq_of_lt (by have := mem_range.mp hi; omega)
  · omega

lemma occupied_full (hring : Ring ch.channel) (hpos : 0 < ch.channel.length)
    (hfull : ch.channel.length = ch.channel.capacity) :
    ((occupied ch).map Slot.cell).Perm (cells 0 ch.channel.start.toNat
      ++ cells ch.channel.end_.toNat ch.channel.capacity.toNat) := by
  obtain ⟨hlt, hend⟩ := end_cases hring hpos
  have hcells : cells 0 ch.channel.start.toNat ++ cells ch.channel.end_.toNat
      ch.channel.capacity.toNat
      = (List.range ch.channel.capacity.toNat).map Slot.cell := by
    rw [hfull] at hend
    rw [show ch.channel.end_.toNat = ch.channel.start.toNat by omega, cells, cells, ← map_append,
      Nat.sub_zero, range_eq_range']
    refine congrArg (List.map Slot.cell) ?_
    conv_lhs => rw [show List.range' ch.channel.start.toNat _ =
      List.range' (0 + 1 * ch.channel.start.toNat) _ by
      rw [Nat.zero_add, Nat.one_mul]]
    rw [range'_append, Nat.add_sub_cancel' hlt.le]
  rw [hcells]
  refine List.Perm.map
    _ ((subperm_of_subset (occupied_nodup hring) fun i hi => ?_).perm_of_length_le ?_)
  · obtain ⟨k, -, rfl⟩ := List.mem_map.mp hi
    exact mem_range.mpr (Nat.mod_lt _ (by omega))
  · rw [occupied, length_elements, hfull, length_range]

lemma count_cell_map (l : List ℕ) (i : ℕ) : (l.map Slot.cell).count (.cell i) = l.count i :=
  count_map_of_injective l Slot.cell (fun _ _ h => Slot.cell.inj h) i

lemma count_cell_holding (i : ℕ) : (holding ch).count (.cell i) = (occupied ch).count i := by
  have hhold : (visitHold ch).count (.cell i) = 0 := by
    refine count_eq_zero.mpr ?_
    rw [visitHold]
    split_ifs <;> simp
  have hrequest : ((List.range ch.channel.sendQueue.length).map Slot.request).count (.cell i) = 0 :=
    count_eq_zero.mpr (by simp)
  rw [holding, count_append, count_append, count_cell_map, hhold, hrequest,
    Nat.add_zero]

lemma not_traced_of_wrapped (hring : Ring ch.channel) (hpos : 0 < ch.channel.length)
    (hlt : ch.channel.end_.toNat < ch.channel.start.toNat) : ¬ Traced ch := by
  intro htraced
  obtain ⟨hstart, -⟩ := end_cases hring hpos
  have hnot : ¬ ch.channel.start < ch.channel.end_ := by
    rw [UInt32.lt_iff_toNat_lt]
    omega
  have hcount := htraced.count_eq (.cell ch.channel.end_.toNat)
  rw [count_cell_holding, iterateObject, if_pos hpos, iterate, if_pos hpos, if_neg hnot,
    count_append, count_append, cells, cells, count_cell_map, count_cell_map] at hcount
  have honce := nodup_iff_count_le_one.mp (occupied_nodup hring) ch.channel.end_.toNat
  have hfirst : 0 < (List.range' 0 (ch.channel.start.toNat - 0)).count ch.channel.end_.toNat :=
    count_pos_iff.mpr (by simp [mem_range'_1]; omega)
  have hsecond : 0 < (List.range' ch.channel.end_.toNat
      (ch.channel.capacity.toNat - ch.channel.end_.toNat)).count ch.channel.end_.toNat :=
    count_pos_iff.mpr (by simp [mem_range'_1]; omega)
  omega

lemma noSender_of_traced (htraced : Traced ch) : ch.channel.sendQueue = [] := by
  by_contra hne
  have hmem : Slot.request 0 ∈ holding ch := by
    refine mem_append_right _ (List.mem_map.mpr ⟨0, ?_, rfl⟩)
    exact mem_range.mpr (length_pos_iff.mpr hne)
  have hvisited := htraced.mem_iff.mpr hmem
  simp only [iterateObject, iterate, visitHold, cells] at hvisited
  split_ifs at hvisited <;> simp at hvisited

lemma traced_iff (hring : Ring ch.channel) : Traced ch ↔ Plain ch := by
  constructor
  · intro htraced
    refine ⟨noSender_of_traced htraced, fun hzero => ?_, fun hpos => ?_⟩
    · by_contra hhold
      have hmem : Slot.hold ∈ holding ch := by
        refine mem_append_left _ (mem_append_right _ ?_)
        rw [visitHold, if_pos (Option.isSome_iff_ne_none.mpr hhold)]
        exact mem_singleton_self _
      have hvisited := htraced.mem_iff.mpr hmem
      rw [iterateObject, if_neg (by rw [hzero]; exact UInt32.lt_irrefl _)] at hvisited
      cases hvisited
    · by_contra hwrapped
      obtain ⟨hnot, hroom⟩ := not_or.mp hwrapped
      refine not_traced_of_wrapped hring hpos ?_ htraced
      rw [UInt32.lt_iff_toNat_lt] at hnot
      have hle := UInt32.le_iff_toNat_le.mp hring.bounded
      have hne : ch.channel.length.toNat ≠ ch.channel.capacity.toNat :=
        fun heq => hroom (UInt32.toNat_inj.mp heq)
      have hpos' := UInt32.lt_iff_toNat_lt.mp hpos
      obtain ⟨-, ⟨hend, -⟩ | ⟨hend, -⟩⟩ := end_cases hring hpos
      · simp at hpos'
        omega
      · omega
  · rintro ⟨hsender, hhold, hunwrapped⟩
    have hholding : holding ch = (occupied ch).map .cell ++ visitHold ch := by
      rw [holding, hsender, length_nil, range_zero, map_nil, append_nil]
    rw [Traced, hholding, iterateObject]
    by_cases hpos : 0 < ch.channel.length
    · rw [if_pos hpos, iterate, if_pos hpos]
      refine List.Perm.append_right _ ?_
      by_cases hlt : ch.channel.start < ch.channel.end_
      · rw [if_pos hlt, occupied_straight hring hpos hlt]
      · rw [if_neg hlt]
        exact (occupied_full hring hpos ((hunwrapped hpos).resolve_left hlt)).symm
    · have hzero : ch.channel.length = 0 := by
        by_contra hne
        exact hpos (UInt32.pos_iff_ne_zero.mpr hne)
      rw [if_neg hpos, occupied, hzero, visitHold, hhold hzero]
      rfl

end Visits

section Runs

variable [DecidableEq C]

lemma inv_step {ch t : RefChannel C A} {a : Action C (Option A)} (hread : ReadsValue ch a)
    (h : Inv ch.channel) (hs : step ch a = some t) : Inv t.channel := by
  cases a with
  | send co any =>
    rw [step] at hs
    split_ifs at hs
    obtain rfl := Option.some.inj hs
    have hsent : Ring { ch.channel with sent := ch.channel.sent ++ [any] } :=
      ⟨h.ring.start, h.ring.end_, h.ring.bounded⟩
    obtain ⟨hring, hbuffered⟩ := hsent.sendNoBarrier h.buffered co any
    exact ⟨hring, hbuffered⟩
  | recv co =>
    rw [step] at hs
    split_ifs at hs
    obtain rfl := Option.some.inj hs
    obtain ⟨hring, hbuffered⟩ := h.ring.recv h.buffered co hread
    exact ⟨hring, hbuffered⟩

/-- In every state of a run that does not read an empty buffer the occupied cells hold what has
been accepted and not delivered, and the visit is exact exactly if no sender waits, an empty
channel holds no object and a wrapped buffer is full. -/
theorem channel_traced_iff (capacity : UInt32) (memory : ℕ → Option A)
    (as : List (Action C (Option A)))
    (hread : EachStep step ReadsValue (new capacity memory : RefChannel C A) as) :
    Always step (fun ch => ch.channel.delivered ++ (occupied ch).map ch.channel.buffer =
      ch.channel.accepted
      ∧ (Traced ch ↔ Plain ch)) (new capacity memory : RefChannel C A) as := by
  have hnew : Inv (new capacity memory : RefChannel C A).channel :=
    ⟨⟨UInt32.pos_iff_ne_zero.mpr, by simp [new, Channel.new], UInt32.zero_le⟩, rfl⟩
  intro bs t hprefix ht
  have hinv : Inv t.channel := always_of_eachStep (I := fun ch : RefChannel C A => Inv ch.channel)
    (fun _ _ _ hread hinv hs => inv_step hread hinv hs) hnew hread bs t hprefix ht
  refine ⟨?_, traced_iff hinv.ring⟩
  rw [← hinv.buffered, occupied, elements, List.map_map]
  rfl

/-- A value is received between two that are sent. -/
theorem channel_traced_buffered :
    (run step (new 2 (fun _ => none) : RefChannel ℕ ℕ)
        [.send 0 (some 5), .recv 1, .send 0 (some 6)]).map
          (fun ch => (ch.channel.delivered, ch.channel.accepted)) =
          some ([some 5], [some 5, some 6])
      ∧ Always step (fun ch =>
          ch.channel.delivered ++ (occupied ch).map ch.channel.buffer = ch.channel.accepted
            ∧ (Traced ch ↔ Plain ch)) (new 2 (fun _ => none) : RefChannel ℕ ℕ)
        [.send 0 (some 5), .recv 1, .send 0 (some 6)] := by
  refine ⟨rfl, channel_traced_iff 2 (fun _ => none) [.send 0 (some 5), .recv 1, .send 0 (some 6)]
    ?_⟩
  refine eachStep_cons.mpr fun ch hch => ⟨trivial, eachStep_cons.mpr fun _ _ => ⟨?_, ?_⟩⟩
  · cases hch
    exact .inr (by decide)
  · exact eachStep_cons.mpr fun _ _ => ⟨trivial, eachStep_nil⟩

/-- A ring that has wrapped around and a waiting sender hold values that are not visited. -/
theorem channel_not_traced :
    ¬ Always step Traced (new 3 (fun _ => none) : RefChannel ℕ ℕ)
        [.send 0 (some 1), .send 0 (some 2), .recv 1, .recv 1, .send 0 (some 3), .send 0 (some 4)]
      ∧ ¬ Always step Traced (new 0 (fun _ => none) : RefChannel ℕ ℕ) [.send 0 (some 5)] := by
  refine ⟨fun h => ?_, fun h => ?_⟩
  · have htraced := h _ _ (prefix_refl _) rfl
    exact absurd (htraced.count_eq (.cell 1)) (by decide)
  · have htraced := h _ _ (prefix_refl _) rfl
    exact absurd (htraced.count_eq .hold) (by decide)

end Runs

end Mai.LangChannelTrace
