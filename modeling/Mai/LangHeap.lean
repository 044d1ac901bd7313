import Mai.LangRememberSet

/-! Objects, the two semi-spaces of the new area and the old area (`lang/heap.h`,
`lang/space.h`). -/
namespace Mai.LangHeap
open LangRememberSet Function

inductive Address
  | semi (area : Bool) (offset : ℕ)
  | old (n : ℕ)
  deriving DecidableEq

/-- `fields` are the pointers that `IterateObject` visits; `header` is the class and everything
else. -/
structure Object (D : Type*) where
  header : D
  fields : List (Option Address)
  forward : Option Address

/-- `original` is the area in which new objects are created; `raw` gives the addresses as
numbers. -/
structure Heap (D : Type*) where
  objects : Address → Option (Object D)
  original : Bool
  originalFree : ℕ
  surviveFree : ℕ
  oldFree : ℕ
  raw : Address → ℕ

structure Slot where
  host : Address
  index : ℕ
  deriving DecidableEq

def Address.code : Address → ℕ ×ₗ ℕ
  | .semi false n => toLex (0, n)
  | .semi true n => toLex (1, n)
  | .old n => toLex (2, n)

lemma Address.code_injective : Function.Injective Address.code := by
  intro a b h
  rcases a with ⟨_ | _, m⟩ | m <;> rcases b with ⟨_ | _, n⟩ | n <;>
    simp_all [Address.code, Prod.ext_iff]

def Slot.code (s : Slot) : (ℕ ×ₗ ℕ) ×ₗ ℕ := toLex (s.host.code, s.index)

lemma Slot.code_injective : Function.Injective Slot.code := by
  rintro ⟨a, i⟩ ⟨b, j⟩ h
  obtain ⟨ha, rfl⟩ : a.code = b.code ∧ i = j := by simpa [Slot.code] using h
  rw [Address.code_injective ha]

instance : LinearOrder Slot := LinearOrder.lift' Slot.code Slot.code_injective

namespace Heap
variable {D : Type*}

def inNewArea (h : Heap D) : Address → Bool
  | .semi area _ => area = h.original
  | .old _ => false

def inOldArea : Address → Bool
  | .semi _ _ => false
  | .old _ => true

def load (h : Heap D) (s : Slot) : Option (Option Address) :=
  (h.objects s.host).bind fun o => o.fields[s.index]?

def onObject (h : Heap D) (a : Address) (f : Object D → Object D) : Heap D :=
  { h with objects := update h.objects a ((h.objects a).map f) }

def store (h : Heap D) (s : Slot) (p : Option Address) : Heap D :=
  h.onObject s.host fun o => { o with fields := o.fields.set s.index p }

def setFields (h : Heap D) (a : Address) (fields : List (Option Address)) : Heap D :=
  h.onObject a fun o => { o with fields := fields }

def destination (h : Heap D) (promote : Bool) : Address :=
  if promote then .old h.oldFree else .semi (!h.original) h.surviveFree

def moveNewSpaceObject (h : Heap D) (a : Address) (o : Object D) (promote : Bool) : Heap D :=
  { h with
    objects := update (update h.objects (h.destination promote) (some o)) a
      (some { o with forward := some (h.destination promote) })
    oldFree := if promote then h.oldFree + 1 else h.oldFree
    surviveFree := if promote then h.surviveFree else h.surviveFree + 1 }

def flip (h : Heap D) : Heap D :=
  { h with
    objects := fun a => if h.inNewArea a then none else h.objects a
    original := !h.original
    originalFree := h.surviveFree
    surviveFree := 0 }

end Heap

end Mai.LangHeap
