import Mai.RunInvariant
import Mai.RingBuffer

/-! Channels between coroutines (`lang/channel.h`, `lang/channel.cc`). -/
namespace Mai.LangChannel
open RunInvariant RingBuffer List

variable {C V : Type*}

/-- `sent` records the values of all calls of `Send`, `accepted` those that were buffered or handed
over, `delivered` those that receivers got. -/
structure Channel (C V : Type*) where
  capacity : UInt32
  length : UInt32
  start : UInt32
  end_ : UInt32
  buffer : ℕ → V
  sendQueue : List (C × V)
  recvQueue : List C
  sent : List V
  accepted : List V
  delivered : List V

namespace Channel

/-- `Machine::NewChannel`; the memory of the ring buffer is not cleared. -/
def new (capacity : UInt32) (memory : ℕ → V) : Channel C V :=
  ⟨capacity, 0, 0, 0, memory, [], [], [], [], []⟩

def isNotBuffered (ch : Channel C V) : Bool := ch.capacity = 0

def isBufferFull (ch : Channel C V) : Bool := ch.length = ch.capacity

def accept (ch : Channel C V) (v : V) : Channel C V := { ch with accepted := ch.accepted ++ [v] }

def deliver (ch : Channel C V) (v : V) : Channel C V := { ch with delivered := ch.delivered ++ [v] }

def takeBufferHead (ch : Channel C V) : Channel C V × V :=
  ({ ch with start := (ch.start + 1) % ch.capacity, length := ch.length - 1 },
    ch.buffer ch.start.toNat)

def addBufferTail (ch : Channel C V) (v : V) : Channel C V :=
  { ch.accept v with
    buffer := Function.update ch.buffer ch.end_.toNat v
    end_ := (ch.end_ + 1) % ch.capacity
    length := ch.length + 1 }

def addSendQueue (ch : Channel C V) (co : C) (v : V) : Channel C V :=
  { ch with sendQueue := ch.sendQueue ++ [(co, v)] }

def addRecvQueue (ch : Channel C V) (co : C) : Channel C V :=
  { ch with recvQueue := ch.recvQueue ++ [co] }

def wakeupRecvQueue (ch : Channel C V) (v : V) : Channel C V :=
  { ch.deliver v with recvQueue := ch.recvQueue.tail }

def wakeupSendQueue (ch : Channel C V) : Channel C V := { ch with sendQueue := ch.sendQueue.tail }

def sendNoBarrier (ch : Channel C V) (co : C) (v : V) : Channel C V :=
  if ch.isNotBuffered then
    match ch.recvQueue with
    | [] => ch.addSendQueue co v
    | _ :: _ => (ch.accept v).wakeupRecvQueue v
  else if ch.isBufferFull then
    match ch.recvQueue with
    | [] => ch.addSendQueue co v
    | _ :: _ =>
      let (ch, head) := ch.takeBufferHead
      (ch.wakeupRecvQueue head).addBufferTail v
  else ch.addBufferTail v

def recv (ch : Channel C V) (co : C) : Channel C V :=
  if ch.isNotBuffered then
    match ch.sendQueue with
    | [] => ch.addRecvQueue co
    | (_, v) :: _ => (ch.wakeupSendQueue.accept v).deliver v
  else if ch.isBufferFull then
    match ch.sendQueue with
    | [] => ch.addRecvQueue co
    | (_, v) :: _ =>
      let (ch, head) := ch.takeBufferHead
      ((ch.deliver head).wakeupSendQueue).addBufferTail v
  else
    let (ch, head) := ch.takeBufferHead
    ch.deliver head

end Channel

inductive Action (C V : Type*)
  | send (co : C) (v : V)
  | recv (co : C)

section Step
variable [DecidableEq C]

def Channel.isWaiting (ch : Channel C V) (co : C) : Bool :=
  co ∈ ch.recvQueue ∨ co ∈ ch.sendQueue.map Prod.fst

def Channel.step (ch : Channel C V) : Action C V → Option (Channel C V)
  | .send co v => if ch.isWaiting co then none
      else some ({ ch with sent := ch.sent ++ [v] }.sendNoBarrier co v)
  | .recv co => if ch.isWaiting co then none else some (ch.recv co)

end Step

structure Fifo (ch : Channel C V) : Prop where
  delivered : ch.delivered <+: ch.accepted
  accepted : ch.accepted <+: ch.sent
  receivers : ch.recvQueue ≠ [] → ch.length = 0 ∧ ch.sendQueue = []
  senders : ch.sendQueue ≠ [] → ch.length = ch.capacity ∧ ch.recvQueue = []
  bounded : ch.length ≤ ch.capacity

def ReadsBuffered (ch : Channel C V) : Action C V → Prop
  | .send _ _ => True
  | .recv _ => ch.capacity = 0 ∨ 0 < ch.length ∧ (ch.length = ch.capacity → ch.sendQueue ≠ [])

lemma sendNoBarrier_cases (ch : Channel C V) (co : C) (v : V) :
    (ch.capacity = 0 ∨ ch.length = ch.capacity) ∧ ch.recvQueue = [] ∧ ch.sendNoBarrier co v =
      ch.addSendQueue co v ∨
    ch.capacity = 0 ∧ ch.recvQueue ≠ [] ∧ ch.sendNoBarrier co v = (ch.accept v).wakeupRecvQueue v ∨
    ch.capacity ≠ 0 ∧ ch.recvQueue ≠ [] ∧ ch.length = ch.capacity ∧
      ch.sendNoBarrier co v =
        (ch.takeBufferHead.1.wakeupRecvQueue ch.takeBufferHead.2).addBufferTail v ∨
    ch.capacity ≠ 0 ∧ ch.length ≠ ch.capacity ∧ ch.sendNoBarrier co v = ch.addBufferTail v := by
  by_cases hcap : ch.capacity = 0 <;> by_cases hfull : ch.length =
    ch.capacity <;> cases hrecv : ch.recvQueue <;>
    simp [Channel.sendNoBarrier, Channel.isNotBuffered, Channel.isBufferFull, *]

lemma recv_cases (ch : Channel C V) (co : C) :
    (ch.capacity = 0 ∨ ch.length = ch.capacity) ∧ ch.sendQueue = [] ∧
      ch.recv co = ch.addRecvQueue co ∨
    (∃ req rest, ch.sendQueue = req :: rest ∧ ch.capacity = 0 ∧
      ch.recv co = (ch.wakeupSendQueue.accept req.2).deliver req.2) ∨
    (∃ req rest, ch.sendQueue = req :: rest ∧ ch.capacity ≠ 0 ∧ ch.length = ch.capacity ∧
      ch.recv co = ((ch.takeBufferHead.1.deliver ch.takeBufferHead.2).wakeupSendQueue).addBufferTail
        req.2) ∨
    ch.capacity ≠ 0 ∧ ch.length ≠ ch.capacity ∧
      ch.recv co = ch.takeBufferHead.1.deliver ch.takeBufferHead.2 := by
  by_cases hcap : ch.capacity = 0 <;> by_cases hfull : ch.length =
    ch.capacity <;> cases hsend : ch.sendQueue <;>
    simp [Channel.recv, Channel.isNotBuffered, Channel.isBufferFull, *]

section RingBuffer

def Channel.values (ch : Channel C V) : List V :=
  elements ch.capacity.toNat ch.start.toNat ch.length.toNat ch.buffer

structure Ring (ch : Channel C V) : Prop where
  start : ch.capacity ≠ 0 → ch.start < ch.capacity
  end_ : ch.end_.toNat = (ch.start.toNat + ch.length.toNat) % ch.capacity.toNat
  bounded : ch.length ≤ ch.capacity

variable {ch : Channel C V}

lemma succ_mod_toNat {n capacity : UInt32} (h : n < capacity) :
    ((n + 1) % capacity).toNat = (n.toNat + 1) % capacity.toNat := by
  have hlt := UInt32.lt_iff_toNat_lt.mp h
  have := capacity.toNat_lt
  rw [UInt32.toNat_mod, UInt32.toNat_add, UInt32.toNat_one,
    Nat.mod_eq_of_lt (show n.toNat + 1 < 2 ^ 32 by omega)]

lemma Ring.takeBufferHead (h : Ring ch) (hlength : 0 < ch.length) :
    Ring ch.takeBufferHead.1 ∧ ch.takeBufferHead.1.length < ch.capacity ∧
      ch.values = ch.takeBufferHead.2 :: ch.takeBufferHead.1.values := by
  have hpos := UInt32.lt_iff_toNat_lt.mp hlength
  have hle := UInt32.le_iff_toNat_le.mp h.bounded
  have hstart := h.start (UInt32.pos_iff_ne_zero.mp (UInt32.lt_of_lt_of_le hlength h.bounded))
  have hlt := UInt32.lt_iff_toNat_lt.mp hstart
  have hsub : (ch.length - 1).toNat = ch.length.toNat - 1 :=
    UInt32.toNat_sub_of_le _ _ (UInt32.le_iff_toNat_le.mpr hpos)
  have hnext := succ_mod_toNat hstart
  refine ⟨⟨fun _ => ?_, ?_, ?_⟩, ?_, ?_⟩
  · exact UInt32.lt_iff_toNat_lt.mpr (hnext ▸ Nat.mod_lt _ (by omega))
  · change ch.end_.toNat =
      (((ch.start + 1) % ch.capacity).toNat + (ch.length - 1).toNat) % ch.capacity.toNat
    rw [hnext, hsub, Nat.mod_add_mod, h.end_]
    congr 1
    omega
  · exact UInt32.le_iff_toNat_le.mpr (by change (ch.length - 1).toNat ≤ ch.capacity.toNat; omega)
  · exact UInt32.lt_iff_toNat_lt.mpr (by change (ch.length - 1).toNat < ch.capacity.toNat; omega)
  · change ch.values = ch.buffer ch.start.toNat ::
      elements ch.capacity.toNat ((ch.start + 1) % ch.capacity).toNat (ch.length - 1).toNat
      ch.buffer
    rw [hnext, hsub, ← elements_pop hlt, Nat.sub_add_cancel (show 1 ≤ ch.length.toNat from hpos)]
    rfl

lemma Ring.addBufferTail (h : Ring ch) (hroom : ch.length < ch.capacity) (v : V) :
    Ring (ch.addBufferTail v) ∧ (ch.addBufferTail v).values = ch.values ++ [v] := by
  have hlt := UInt32.lt_iff_toNat_lt.mp hroom
  have hlength : (ch.length + 1).toNat = ch.length.toNat + 1 := by
    have := ch.capacity.toNat_lt
    rw [UInt32.toNat_add, UInt32.toNat_one, Nat.mod_eq_of_lt (by omega)]
  have hend : ch.end_ < ch.capacity := by
    rw [UInt32.lt_iff_toNat_lt, h.end_]
    exact Nat.mod_lt _ (by omega)
  refine ⟨⟨h.start, ?_, ?_⟩, ?_⟩
  · change ((ch.end_ + 1) % ch.capacity).toNat =
      (ch.start.toNat + (ch.length + 1).toNat) % ch.capacity.toNat
    rw [succ_mod_toNat hend, h.end_, hlength, Nat.mod_add_mod, Nat.add_assoc]
  · exact UInt32.le_iff_toNat_le.mpr (hlength ▸ hlt)
  · change elements _ _ (ch.length + 1).toNat (Function.update ch.buffer ch.end_.toNat v) = _
    rw [hlength, h.end_]
    exact elements_push hlt v

lemma Ring.values_nil (h : Ring ch) (hcap : ch.capacity = 0) : ch.values = [] := by
  have hzero : ch.length = 0 := UInt32.le_zero_iff.mp (hcap ▸ h.bounded)
  simp [Channel.values, hzero]

lemma Ring.sendNoBarrier (h : Ring ch) (hbuffered : ch.delivered ++ ch.values = ch.accepted)
    (co : C) (v : V) :
    Ring (ch.sendNoBarrier co v) ∧
      (ch.sendNoBarrier co v).delivered ++ (ch.sendNoBarrier co v).values =
        (ch.sendNoBarrier co v).accepted := by
  rcases sendNoBarrier_cases ch co v with ⟨-, -, heq⟩ | ⟨hcap, -, heq⟩ | ⟨hcap, -, hfull, heq⟩ | ⟨-,
    hroom, heq⟩ <;>
    rw [heq]
  · exact ⟨⟨h.start, h.end_, h.bounded⟩, hbuffered⟩
  · refine ⟨⟨h.start, h.end_, h.bounded⟩, ?_⟩
    change ch.delivered ++ [v] ++ ch.values = ch.accepted ++ [v]
    rw [← hbuffered, h.values_nil hcap, append_nil, append_nil]
  · obtain ⟨hring, hlt, hvalues⟩ := h.takeBufferHead (hfull ▸ UInt32.pos_iff_ne_zero.mpr hcap)
    have htaken : Ring (ch.takeBufferHead.1.wakeupRecvQueue ch.takeBufferHead.2) :=
      ⟨hring.start, hring.end_, hring.bounded⟩
    obtain ⟨hadded, hvalues'⟩ := htaken.addBufferTail hlt v
    refine ⟨hadded, ?_⟩
    rw [hvalues']
    change ch.delivered ++ [ch.takeBufferHead.2] ++ (ch.takeBufferHead.1.values ++ [v]) =
      ch.accepted ++ [v]
    simp [← hbuffered, hvalues]
  · obtain ⟨hring, hvalues⟩ := h.addBufferTail (UInt32.lt_of_le_of_ne h.bounded hroom) v
    refine ⟨hring, ?_⟩
    change ch.delivered ++ (ch.addBufferTail v).values = ch.accepted ++ [v]
    rw [hvalues, ← append_assoc, hbuffered]

lemma Ring.recv (h : Ring ch) (hbuffered : ch.delivered ++ ch.values = ch.accepted) (co : C)
    (hread : ch.capacity = 0 ∨ 0 < ch.length) :
    Ring (ch.recv co) ∧ (ch.recv co).delivered ++ (ch.recv co).values = (ch.recv co).accepted := by
  rcases recv_cases ch co with ⟨-, -, heq⟩ | ⟨req, rest, -, hcap, heq⟩ | ⟨req, rest, -, hcap, -,
    heq⟩ | ⟨hcap, -, heq⟩ <;>
    rw [heq]
  · exact ⟨⟨h.start, h.end_, h.bounded⟩, hbuffered⟩
  · refine ⟨⟨h.start, h.end_, h.bounded⟩, ?_⟩
    change ch.delivered ++ [req.2] ++ ch.values = ch.accepted ++ [req.2]
    rw [← hbuffered, h.values_nil hcap, append_nil, append_nil]
  · obtain ⟨hring, hlt, hvalues⟩ := h.takeBufferHead (hread.resolve_left hcap)
    have htaken : Ring (ch.takeBufferHead.1.deliver ch.takeBufferHead.2).wakeupSendQueue :=
      ⟨hring.start, hring.end_, hring.bounded⟩
    obtain ⟨hadded, hvalues'⟩ := htaken.addBufferTail hlt req.2
    refine ⟨hadded, ?_⟩
    rw [hvalues']
    change ch.delivered ++ [ch.takeBufferHead.2] ++ (ch.takeBufferHead.1.values ++ [req.2]) =
      ch.accepted ++ [req.2]
    simp [← hbuffered, hvalues]
  · obtain ⟨hring, -, hvalues⟩ := h.takeBufferHead (hread.resolve_left hcap)
    refine ⟨⟨hring.start, hring.end_, hring.bounded⟩, ?_⟩
    change ch.delivered ++ [ch.takeBufferHead.2] ++ ch.takeBufferHead.1.values = ch.accepted
    rw [← hbuffered, hvalues, append_assoc, singleton_append]

end RingBuffer

section Invariant

structure Inv (ch : Channel C V) : Prop where
  ring : Ring ch
  buffered : ch.delivered ++ ch.values = ch.accepted
  offered : ch.accepted ++ ch.sendQueue.map Prod.snd = ch.sent
  receivers : ch.recvQueue ≠ [] → ch.capacity = 0 ∧ ch.sendQueue = []
  senders : ch.sendQueue ≠ [] → ch.length = ch.capacity

variable {ch : Channel C V}

lemma inv_new (capacity : UInt32) (memory : ℕ → V) :
    Inv (Channel.new capacity memory : Channel C V) where
  ring := ⟨UInt32.pos_iff_ne_zero.mpr, by simp [Channel.new], UInt32.zero_le⟩
  buffered := rfl
  offered := rfl
  receivers h := absurd rfl h
  senders h := absurd rfl h

lemma Inv.length_zero (h : Inv ch) (hc : ch.capacity = 0) : ch.length = 0 :=
  UInt32.le_zero_iff.mp (hc ▸ h.ring.bounded)

lemma Inv.fifo (h : Inv ch) : Fifo ch where
  delivered := ⟨_, h.buffered⟩
  accepted := ⟨_, h.offered⟩
  receivers hr := ⟨h.length_zero (h.receivers hr).1, (h.receivers hr).2⟩
  senders hs := ⟨h.senders hs, by_contra fun hr => hs (h.receivers hr).2⟩
  bounded := h.ring.bounded

lemma Inv.sendNoBarrier (h : Inv ch) (co : C) (v : V) :
    Inv ({ ch with sent := ch.sent ++ [v] }.sendNoBarrier co v) := by
  have hsent : Ring { ch with sent := ch.sent ++ [v] } :=
    ⟨h.ring.start, h.ring.end_, h.ring.bounded⟩
  obtain ⟨hring, hbuffered⟩ := hsent.sendNoBarrier h.buffered co v
  rcases sendNoBarrier_cases { ch with sent := ch.sent ++ [v] } co v with ⟨hfull, hrecv,
    heq⟩ | ⟨hcap, hrecv, heq⟩ |
    ⟨hcap, hrecv, -, heq⟩ | ⟨hcap, hroom, heq⟩ <;> rw [heq] at hring hbuffered ⊢
  · refine ⟨hring, hbuffered, ?_, fun hr => absurd hrecv hr, fun _ => ?_⟩
    · simp [Channel.addSendQueue, ← h.offered]
    · exact hfull.elim (fun hcap => (h.length_zero hcap).trans hcap.symm) id
  · have hsend := (h.receivers hrecv).2
    refine ⟨hring, hbuffered, ?_, fun _ => ⟨hcap, hsend⟩, fun hs => absurd hsend hs⟩
    change ch.accepted ++ [v] ++ ch.sendQueue.map Prod.snd = ch.sent ++ [v]
    rw [← h.offered, hsend, map_nil, append_nil, append_nil]
  · exact absurd (h.receivers hrecv).1 hcap
  · have hsend : ch.sendQueue = [] := by_contra fun hs => hroom (h.senders hs)
    refine ⟨hring, hbuffered, ?_, h.receivers, fun hs => absurd hsend hs⟩
    change ch.accepted ++ [v] ++ ch.sendQueue.map Prod.snd = ch.sent ++ [v]
    rw [← h.offered, hsend, map_nil, append_nil, append_nil]

lemma Inv.recv (h : Inv ch) (co : C) (hread : ReadsBuffered ch (.recv co : Action C V)) :
    Inv (ch.recv co) := by
  obtain ⟨hring, hbuffered⟩ := h.ring.recv h.buffered co (hread.imp_right And.left)
  rcases recv_cases ch co with ⟨hfull, hsend, heq⟩ | ⟨req, rest, hsend, hcap, heq⟩ |
    ⟨req, rest, hsend, hcap, hfull, heq⟩ | ⟨hcap, hroom, heq⟩ <;> rw [heq] at hring hbuffered ⊢
  · have hcap : ch.capacity = 0 := by
      rcases hread with hcap | ⟨-, hwaits⟩
      · exact hcap
      · exact hfull.resolve_right fun hfull => hwaits hfull hsend
    exact ⟨hring, hbuffered, h.offered, fun _ => ⟨hcap, hsend⟩, h.senders⟩
  · refine ⟨hring, hbuffered, ?_, fun hr => ?_, fun _ => ?_⟩
    · change ch.accepted ++ [req.2] ++ ch.sendQueue.tail.map Prod.snd = ch.sent
      simp [← h.offered, hsend]
    · simp [(h.receivers hr).2] at hsend
    · exact (h.length_zero hcap).trans hcap.symm
  · refine ⟨hring, hbuffered, ?_, fun hr => ?_, fun _ => ?_⟩
    · change ch.accepted ++ [req.2] ++ ch.sendQueue.tail.map Prod.snd = ch.sent
      simp [← h.offered, hsend]
    · simp [(h.receivers hr).2] at hsend
    · change ch.length - 1 + 1 = ch.capacity
      rw [UInt32.sub_add_cancel, hfull]
  · exact ⟨hring, hbuffered, h.offered, h.receivers, fun hs => absurd (h.senders hs) hroom⟩

lemma recv_unread (h : Inv ch) (co : C) (hread : ¬ ReadsBuffered ch (.recv co : Action C V)) :
    ¬ Fifo (ch.recv co) := by
  intro hfifo
  simp only [ReadsBuffered, not_or, not_and, Classical.not_imp, not_not] at hread
  obtain ⟨hcap, hread⟩ := hread
  rcases recv_cases ch co with ⟨hfull, hsend, heq⟩ | ⟨req, rest, hsend, hzero, heq⟩ |
    ⟨req, rest, hsend, -, hfull, heq⟩ | ⟨-, hroom, heq⟩
  · rw [heq] at hfifo
    obtain ⟨hzero, -⟩ := hfifo.receivers (by simp [Channel.addRecvQueue])
    exact hcap ((hfull.resolve_left hcap).symm.trans hzero)
  · exact hcap hzero
  · have := hread (hfull ▸ UInt32.pos_iff_ne_zero.mpr hcap)
    simp [hsend] at this
  · have hzero : ch.length = 0 := by
      by_contra hpos
      exact hroom (hread (UInt32.pos_iff_ne_zero.mpr hpos)).1
    have hvalues : ch.values = [] := by simp [Channel.values, hzero]
    rw [heq] at hfifo
    have hle := hfifo.delivered.length_le
    change (ch.delivered ++ [ch.takeBufferHead.2]).length ≤ ch.accepted.length at hle
    simp [← h.buffered, hvalues] at hle

end Invariant

section Runs
variable [DecidableEq C] {ch t : Channel C V} {co : C} {v : V}

lemma step_send (h : ch.step (.send co v) = some t) :
    t = { ch with sent := ch.sent ++ [v] }.sendNoBarrier co v := by
  rw [Channel.step] at h
  split_ifs at h
  exact (Option.some.inj h).symm

lemma step_recv (h : ch.step (.recv co) = some t) : t = ch.recv co := by
  rw [Channel.step] at h
  split_ifs at h
  exact (Option.some.inj h).symm

/-- A channel is first in first out, and nobody waits needlessly, exactly in the runs that read
buffered channels with some value and, when full, with a waiting sender. -/
theorem fifo_iff_readsBuffered (capacity : UInt32) (memory : ℕ → V) (as : List (Action C V)) :
    Always Channel.step Fifo (Channel.new capacity memory) as ↔
      EachStep Channel.step ReadsBuffered (Channel.new capacity memory) as := by
  refine always_iff_of_broken (I := Inv) (fun _ h => h.fifo) (fun ch a t hread h hs => ?_)
    (fun ch a t h hs hfifo => ?_)
    (inv_new capacity memory)
  · cases a with
    | send co v => exact step_send hs ▸ h.sendNoBarrier co v
    | recv co => exact step_recv hs ▸ h.recv co hread
  · cases a with
    | send co v => trivial
    | recv co => exact by_contra fun hread => recv_unread h co hread (step_recv hs ▸ hfifo)

/-- A receive from an empty buffered channel returns what the memory holds and leaves a length
beyond the capacity; a receive from a full one is suspended. -/
theorem fifo_broken :
    ¬ Always Channel.step Fifo (Channel.new 2 fun _ => 7 : Channel ℕ ℕ) [.recv 0] ∧
      ¬ Always Channel.step Fifo (Channel.new 1 fun _ => 7 : Channel ℕ ℕ) [.send 0 5, .recv 1] := by
  refine ⟨fun h => ?_, fun h => ?_⟩
  · have hfifo := h [.recv 0] _ (prefix_refl _) rfl
    exact absurd hfifo.bounded (by decide)
  · have hfifo := h [.send 0 5, .recv 1] _ (prefix_refl _) rfl
    exact absurd (hfifo.receivers (by decide)).1 (by decide)

end Runs

end Mai.LangChannel
