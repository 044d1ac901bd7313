import Mai.LangHeap

/-! The minor collection (`lang/scavenger.cc`). -/
namespace Mai.LangScavenger
open LangRememberSet LangHeap

variable {D : Type*}

structure Scavenger (D : Type*) where
  heap : Heap D
  promoted : List Address
  promoteLevel : ℕ

namespace Scavenger

def shouldPromote (s : Scavenger D) (a : Address) : Bool := s.heap.raw a < s.promoteLevel

def move (s : Scavenger D) (a : Address) (o : Object D) (promote : Bool) : Scavenger D :=
  { s with
    heap := s.heap.moveNewSpaceObject a o promote
    promoted := if promote then s.promoted ++ [s.heap.destination promote] else s.promoted }

def visitPointer (s : Scavenger D) (p : Option Address) : Scavenger D × Option Address :=
  match p with
  | none => (s, none)
  | some a =>
    match s.heap.objects a with
    | none => (s, some a)
    | some o =>
      match o.forward with
      | some forward => (s, some forward)
      | none =>
        if s.heap.inNewArea a
          then (s.move a o (s.shouldPromote a), some (s.heap.destination (s.shouldPromote a)))
        else (s, some a)

def visitPointers (s : Scavenger D) : List (Option Address) → Scavenger D × List (Option Address)
  | [] => (s, [])
  | p :: ps =>
    let (s, q) := s.visitPointer p
    let (s, qs) := s.visitPointers ps
    (s, q :: qs)

def iterateObject (s : Scavenger D) (a : Address) : Scavenger D :=
  match s.heap.objects a with
  | none => s
  | some o =>
    let (s, fields) := s.visitPointers o.fields
    { s with heap := s.heap.setFields a fields }

/-- One record of the remember set. The target is promoted whatever its address is; a field without
an object of the new area ends the collection. -/
def visitRecord (s : Scavenger D) (slot : Slot) : Option (Scavenger D) :=
  (s.heap.load slot).join.bind fun a => (s.heap.objects a).bind fun o =>
    match o.forward with
    | some forward => some { s with heap := s.heap.store slot (some forward) }
    | none =>
      if s.heap.inNewArea a then
        let t := s.move a o true
        some { t with heap := t.heap.store slot (some (s.heap.destination true)) }
      else none

def scanSurvivors (s : Scavenger D) (i : ℕ) : ℕ → Scavenger D
  | 0 => s
  | fuel + 1 =>
    if i < s.heap.surviveFree
      then (s.iterateObject (.semi (!s.heap.original) i)).scanSurvivors (i + 1) fuel else s

def scanPromoted (s : Scavenger D) : ℕ → Scavenger D
  | 0 => s
  | fuel + 1 =>
    match s.promoted with
    | [] => s
    | a :: rest => ({ s with promoted := rest }.iterateObject a).scanPromoted fuel

end Scavenger

/-- `Scavenger::Run` up to the flip. As many objects as the new area holds can be copied. -/
def scavenge (h : Heap D) (roots : List (Option Address)) (slots : List Slot) (promoteLevel : ℕ) :
    Option (Scavenger D × List (Option Address)) :=
  let (s, roots) :=
    ({ heap := h, promoted := [], promoteLevel := promoteLevel } : Scavenger D).visitPointers roots
  (slots.foldlM Scavenger.visitRecord s).map fun s =>
    ((s.scanSurvivors 0 h.originalFree).scanPromoted h.originalFree, roots)

def run (h : Heap D) (roots : List (Option Address)) (slots : List Slot) (promoteLevel : ℕ) :
    Option (Heap D × List (Option Address)) :=
  (scavenge h roots slots promoteLevel).map fun (s, roots) => (s.heap.flip, roots)

end Mai.LangScavenger
