import Mai.BaseAlign

/-!
# Typed entry points of maps

The entry points for maps in `lang/runtime.cc` select the `ImplementMap<K>` they work with by the
type descriptors of the map. The maps themselves are given by their operations, and what is assumed
of them is that the operations of one `K` are those of a finite map.
-/
namespace Mai.LangTypedMaps

open BaseAlign Function List

section Model

inductive Class
  | i8 | i16 | i32 | i64 | f32 | f64 | string | object
  deriving DecidableEq, Repr

namespace Class

def isReference : Class → Bool
  | string | object => true
  | _ => false

def isFloating : Class → Bool
  | f32 | f64 => true
  | _ => false

def referenceSize : Class → ℕ
  | i8 => 1
  | i16 => 2
  | i32 | f32 => 4
  | _ => 8

end Class

inductive Kind
  | u8 | u16 | u32 | u64 | f32 | f64 | string | any
  deriving DecidableEq, Repr

namespace Kind

def isReference : Kind → Bool
  | string | any => true
  | _ => false

def width : Kind → ℕ
  | u8 => 1
  | u16 => 2
  | u32 | f32 => 4
  | _ => 8

end Kind

abbrev Word := BitVec 64

/-- The operations of `ImplementMap<K>`. Those of the iteration do not hash; they depend on `K` only
by the layout of the entries. -/
structure ImplementMap (M Key : Type*) where
  unsafePut : Kind → M → Key → Word → M
  unsafeSet : Kind → M → Key → Word → M
  unsafeRemove : Kind → M → Key → M
  clone : Kind → M → M
  findForGet : Kind → M → Key → Option Word
  findNextBucket : ℕ → M → ℕ → ℕ × ℕ
  findNextEntry : ℕ → M → ℕ × ℕ → ℕ × ℕ
  getEntry : ℕ → M → ℕ → Key × Word

structure AbstractMap (M : Type*) where
  keyType : Class
  valueType : Class
  impl : M

variable {M Key : Type*} (I : ImplementMap M Key) (null : Key → Bool)

namespace ImplementMap

def unsafePlus (K : Kind) (m : M) (key : Key) (value : Word) : M :=
  I.unsafePut K (I.clone K m) key value

def unsafeMinus (K : Kind) (m : M) (key : Key) : M := I.unsafeRemove K (I.clone K m) key

def containsKey (K : Kind) (m : M) (key : Key) : Bool := (I.findForGet K m key).isSome

def unsafeGet (size : ℕ) (K : Kind) (m : M) (key : Key) : Word :=
  match I.findForGet K m key with
  | none => 0
  | some value => if size = 4 then (value.setWidth 32).setWidth 64 else value

end ImplementMap

def stringOrAny (type : Class) : Kind := if type = .string then .string else .any

def floating32 (type : Class) : Kind := if type.isFloating then .f32 else .u32

def floating64 (type : Class) : Kind := if type.isFloating then .f64 else .u64

def shifted (type : Class) (value : Word) : Word :=
  if type.referenceSize < 8 then value >>> 32 else value

def tMapPutAll (K : Kind) (map : AbstractMap M) (items : List (Key × Word)) : AbstractMap M :=
  items.foldl (fun map e =>
    { map with
      impl := I.unsafePut K map.impl e.1 <|
        if map.valueType.isReference then e.2
        else if roundUp map.valueType.referenceSize 4 = 4 then (e.2.setWidth 32).setWidth 64
        else e.2 }) map

def mapPutAll (map : AbstractMap M) (items : List (Key × Word)) : AbstractMap M :=
  if map.keyType.isReference then tMapPutAll I (stringOrAny map.keyType) map items
  else match map.keyType.referenceSize with
    | 1 => tMapPutAll I .u8 map items
    | 2 => tMapPutAll I .u16 map items
    | 4 => tMapPutAll I (floating32 map.keyType) map items
    | _ => tMapPutAll I (floating64 map.keyType) map items

def mapGet (size : ℕ) (map : AbstractMap M) (key : Key) : Word :=
  if null key then 0 else I.unsafeGet size (stringOrAny map.keyType) map.impl key

def map8Get (size : ℕ) (map : AbstractMap M) (key : Key) : Word := I.unsafeGet size .u8 map.impl key

def map16Get (size : ℕ) (map : AbstractMap M) (key : Key) : Word :=
  I.unsafeGet size .u16 map.impl key

def map32Get (size : ℕ) (map : AbstractMap M) (key : Key) : Word :=
  I.unsafeGet size (floating32 map.keyType) map.impl key

def map64Get (size : ℕ) (map : AbstractMap M) (key : Key) : Word :=
  I.unsafeGet size (floating64 map.keyType) map.impl key

def mapContainsKey (map : AbstractMap M) (key : Key) : Bool :=
  if null key then false else I.containsKey (stringOrAny map.keyType) map.impl key

def map8ContainsKey (map : AbstractMap M) (key : Key) : Bool := I.containsKey .u8 map.impl key

def map16ContainsKey (map : AbstractMap M) (key : Key) : Bool := I.containsKey .u16 map.impl key

def map32ContainsKey (map : AbstractMap M) (key : Key) : Bool :=
  I.containsKey (floating32 map.valueType) map.impl key

def map64ContainsKey (map : AbstractMap M) (key : Key) : Bool :=
  I.containsKey (floating64 map.valueType) map.impl key

def tMapSet (K : Kind) (map : AbstractMap M) (key : Key) (value : Word) : AbstractMap M :=
  { map with impl := I.unsafeSet K map.impl key (shifted map.valueType value) }

def mapSet (map : AbstractMap M) (key : Key) (value : Word) : AbstractMap M :=
  if null key then map else tMapSet I (stringOrAny map.keyType) map key value

def map8Set (map : AbstractMap M) : Key → Word → AbstractMap M := tMapSet I .u8 map

def map16Set (map : AbstractMap M) : Key → Word → AbstractMap M := tMapSet I .u16 map

def map32Set (map : AbstractMap M) : Key → Word → AbstractMap M :=
  tMapSet I (floating32 map.keyType) map

def map64Set (map : AbstractMap M) : Key → Word → AbstractMap M :=
  tMapSet I (floating64 map.keyType) map

def tMapPut (K : Kind) (map : AbstractMap M) (key : Key) (value : Word) : AbstractMap M :=
  { map with
    impl := I.unsafePut K map.impl key (if map.valueType.isReference then value
      else shifted map.valueType value) }

def mapPut (map : AbstractMap M) (key : Key) (value : Word) : AbstractMap M :=
  if null key then map else tMapPut I (stringOrAny map.keyType) map key value

def map8Put (map : AbstractMap M) : Key → Word → AbstractMap M := tMapPut I .u8 map

def map16Put (map : AbstractMap M) : Key → Word → AbstractMap M := tMapPut I .u16 map

def map32Put (map : AbstractMap M) : Key → Word → AbstractMap M :=
  tMapPut I (floating32 map.keyType) map

def map64Put (map : AbstractMap M) : Key → Word → AbstractMap M :=
  tMapPut I (floating64 map.keyType) map

def tMapRemove (K : Kind) (map : AbstractMap M) (key : Key) : AbstractMap M :=
  { map with impl := I.unsafeRemove K map.impl key }

def mapRemove (map : AbstractMap M) (key : Key) : AbstractMap M :=
  if null key then map else tMapRemove I (stringOrAny map.keyType) map key

def map8Remove (map : AbstractMap M) : Key → AbstractMap M := tMapRemove I .u8 map

def map16Remove (map : AbstractMap M) : Key → AbstractMap M := tMapRemove I .u16 map

def map32Remove (map : AbstractMap M) : Key → AbstractMap M :=
  tMapRemove I (floating32 map.keyType) map

def map64Remove (map : AbstractMap M) : Key → AbstractMap M :=
  tMapRemove I (floating64 map.keyType) map

def tMapPlus (K : Kind) (map : AbstractMap M) (key : Key) (value : Word) : AbstractMap M :=
  { map with impl := I.unsafePlus K map.impl key (shifted map.valueType value) }

def mapPlus (map : AbstractMap M) (key : Key) (value : Word) : AbstractMap M :=
  if null key then map else tMapPlus I (stringOrAny map.keyType) map key value

def map8Plus (map : AbstractMap M) : Key → Word → AbstractMap M := tMapPlus I .u8 map

def map16Plus (map : AbstractMap M) : Key → Word → AbstractMap M := tMapPlus I .u16 map

def map32Plus (map : AbstractMap M) : Key → Word → AbstractMap M :=
  tMapPlus I (floating32 map.keyType) map

def map64Plus (map : AbstractMap M) : Key → Word → AbstractMap M :=
  tMapPlus I (floating64 map.keyType) map

def tMapPlusAny (K : Kind) (map : AbstractMap M) (key : Key) (value : Word) : AbstractMap M :=
  { map with impl := I.unsafePlus K map.impl key value }

def mapPlusAny (map : AbstractMap M) (key : Key) (value : Word) : AbstractMap M :=
  if null key then map else tMapPlusAny I (stringOrAny map.keyType) map key value

def map8PlusAny (map : AbstractMap M) : Key → Word → AbstractMap M := tMapPlusAny I .u8 map

def map16PlusAny (map : AbstractMap M) : Key → Word → AbstractMap M := tMapPlusAny I .u16 map

def map32PlusAny (map : AbstractMap M) : Key → Word → AbstractMap M :=
  tMapPlusAny I (floating32 map.keyType) map

def map64PlusAny (map : AbstractMap M) : Key → Word → AbstractMap M :=
  tMapPlusAny I (floating64 map.keyType) map

def tMapMinus (K : Kind) (map : AbstractMap M) (key : Key) : AbstractMap M :=
  { map with impl := I.unsafeMinus K map.impl key }

def mapMinus (map : AbstractMap M) : Key → AbstractMap M :=
  tMapMinus I (stringOrAny map.keyType) map

def map8Minus (map : AbstractMap M) : Key → AbstractMap M := tMapMinus I .u8 map

def map16Minus (map : AbstractMap M) : Key → AbstractMap M := tMapMinus I .u16 map

def map32Minus (map : AbstractMap M) : Key → AbstractMap M :=
  tMapMinus I (if map.keyType = .string then .f32 else .u32) map

def map64Minus (map : AbstractMap M) : Key → AbstractMap M :=
  tMapMinus I (if map.keyType = .string then .f64 else .u64) map

def tMapNext (K : Kind) (m : M) (iter : ℕ × ℕ) : ℕ × ℕ :=
  if iter ≠ (0, 0) then I.findNextEntry K.width m iter else I.findNextBucket K.width m 1

def sized (type : Class) : Kind :=
  match type.referenceSize with
  | 1 => .u8
  | 2 => .u16
  | 4 => .u32
  | _ => .u64

def tMapValue (map : AbstractMap M) (iter : ℕ × ℕ) : Word :=
  (I.getEntry (sized map.keyType).width map.impl iter.2).2

def mapValueF32 (map : AbstractMap M) (iter : ℕ × ℕ) : Word :=
  ((tMapValue I map iter).setWidth 32).setWidth 64

def mapKey (map : AbstractMap M) (iter : ℕ × ℕ) : Key :=
  (I.getEntry (sized map.keyType).width map.impl iter.2).1

def mapKeyF32 (map : AbstractMap M) (iter : ℕ × ℕ) : Key :=
  (I.getEntry Kind.f32.width map.impl iter.2).1

def mapKeyF64 (map : AbstractMap M) (iter : ℕ × ℕ) : Key :=
  (I.getEntry Kind.f64.width map.impl iter.2).1

end Model

section Calls

variable {M Key : Type*} (I : ImplementMap M Key) (null : Key → Bool)

def select {α : Sort*} (type : Class) (any b8 b16 b32 b64 : α) : α :=
  if type.isReference then any
  else match type.referenceSize with
    | 1 => b8
    | 2 => b16
    | 4 => b32
    | _ => b64

inductive Op (Key : Type*)
  | put (key : Key) (value : Word)
  | set (key : Key) (value : Word)
  | putAll (items : List (Key × Word))
  | remove (key : Key)
  | plus (key : Key) (value : Word)
  | minus (key : Key)

def call (map : AbstractMap M) : Op Key → AbstractMap M
  | .put key value =>
    select map.keyType (mapPut I null map) (map8Put I map) (map16Put I map) (map32Put I map)
      (map64Put I map) key value
  | .set key value =>
    select map.keyType (mapSet I null map) (map8Set I map) (map16Set I map) (map32Set I map)
      (map64Set I map) key value
  | .putAll items => mapPutAll I map items
  | .remove key =>
    select map.keyType (mapRemove I null map) (map8Remove I map) (map16Remove I map)
      (map32Remove I map) (map64Remove I map) key
  | .plus key value =>
    if map.valueType.isReference then
      select map.keyType (mapPlusAny I null map) (map8PlusAny I map) (map16PlusAny I map)
        (map32PlusAny I map) (map64PlusAny I map) key value
    else
      select map.keyType (mapPlus I null map) (map8Plus I map) (map16Plus I map) (map32Plus I map)
        (map64Plus I map) key value
  | .minus key =>
    select map.keyType (mapMinus I map) (map8Minus I map) (map16Minus I map) (map32Minus I map)
      (map64Minus I map) key

def containsKey (map : AbstractMap M) (key : Key) : Bool :=
  select map.keyType (mapContainsKey I null map) (map8ContainsKey I map) (map16ContainsKey I map)
    (map32ContainsKey I map)
    (map64ContainsKey I map) key

def get (map : AbstractMap M) (key : Key) : Word :=
  let size := if map.valueType = .f32 then 4 else 8
  select map.keyType (mapGet I null size map) (map8Get I size map) (map16Get I size map)
    (map32Get I size map)
    (map64Get I size map) key

def mapNext (map : AbstractMap M) : ℕ × ℕ → ℕ × ℕ :=
  select map.keyType (tMapNext I .any map.impl) (tMapNext I .u8 map.impl) (tMapNext I .u16 map.impl)
    (tMapNext I .u32 map.impl) (tMapNext I .u64 map.impl)

def key (map : AbstractMap M) : ℕ × ℕ → Key :=
  match map.keyType with
  | .f32 => mapKeyF32 I map
  | .f64 => mapKeyF64 I map
  | _ => mapKey I map

def value (map : AbstractMap M) : ℕ × ℕ → Word :=
  if map.valueType = .f32 then mapValueF32 I map else tMapValue I map

end Calls

section Statement

variable {M Key : Type*} [DecidableEq Key] (I : ImplementMap M Key) (null : Key → Bool)

def bind (keyType valueType : Class) (f : Key → Option Word) : Op Key → Key → Option Word
  | .put k v | .set k v | .plus k v =>
    if keyType.isReference && null k then f else update f k (some (shifted valueType v))
  | .putAll items => items.foldl (fun f e => if keyType.isReference && null e.1 then f else
    update f e.1 (some (if valueType.referenceSize < 8 then (e.2.setWidth 32).setWidth 64
      else e.2))) f
  | .remove k | .minus k => update f k none

def Visits (next : ℕ × ℕ → ℕ × ℕ) (iter : ℕ × ℕ) : List (ℕ × ℕ) → Prop
  | [] => next iter = (0, 0)
  | i :: is => next iter = i ∧ i ≠ (0, 0) ∧ Visits next i is

def Enumerates (next : ℕ × ℕ → ℕ × ℕ) (entry : ℕ × ℕ → Key × Word) (f : Key → Option Word) : Prop :=
  ∃ iters, Visits next (0, 0) iters ∧ (iters.map fun i => (entry i).1).Nodup ∧
    ∀ k v, f k = some v ↔ ∃ i ∈ iters, entry i = (k, v)

structure Correct (Rep : Kind → M → (Key → Option Word) → Prop) : Prop where
  put : ∀ {K m f k}, Rep K m f → (K.isReference && null k) = false → ∀ v,
    Rep K (I.unsafePut K m k v) (update f k (some v))
  set : ∀ {K m f k}, Rep K m f → (K.isReference && null k) = false → ∀ v,
    Rep K (I.unsafeSet K m k v) (update f k (some v))
  remove : ∀ {K m f k}, Rep K m f → (K.isReference && null k) = false →
    Rep K (I.unsafeRemove K m k) (update f k none)
  clone : ∀ {K m f}, Rep K m f → Rep K (I.clone K m) f
  find : ∀ {K m f k}, Rep K m f → (K.isReference && null k) = false → I.findForGet K m k = f k
  iterate : ∀ {K m f}, Rep K m f → Enumerates (tMapNext I K m) (fun i => I.getEntry K.width m i.2) f

structure Agrees (map : AbstractMap M) (f : Key → Option Word) : Prop where
  containsKey : ∀ k, containsKey I null map k = true ↔ f k ≠ none
  get : ∀ k v, f k = some v → get I null map k = v
  iterate : Enumerates (mapNext I map) (fun i => (key I map i, value I map i)) f

def kind : Class → Kind
  | .i8 => .u8
  | .i16 => .u16
  | .i32 => .u32
  | .i64 => .u64
  | .f32 => .f32
  | .f64 => .f64
  | .string => .string
  | .object => .any

/-- Null keys are not given to `PutAll` and `Minus`, and floating keys not to `Minus`. -/
def Careful (keyType : Class) : Op Key → Prop
  | .putAll items => ∀ e ∈ items, (keyType.isReference && null e.1) = false
  | .minus k => keyType.isFloating = false ∧ (keyType.isReference && null k) = false
  | _ => True

end Statement

section Kinds

variable {M Key : Type*} {I : ImplementMap M Key} {null : Key → Bool} {kt vt : Class} {m : M}

lemma isReference_kind (kt : Class) : (kind kt).isReference = kt.isReference := by cases kt <;> rfl

lemma call_put (k : Key) (v : Word) : call I null ⟨kt, vt, m⟩ (.put k v) =
    if kt.isReference && null k then ⟨kt, vt, m⟩
    else ⟨kt, vt, I.unsafePut (kind kt) m k (shifted vt v)⟩ := by
  cases kt <;> cases vt <;> rfl

lemma call_set (k : Key) (v : Word) : call I null ⟨kt, vt, m⟩ (.set k v) =
    if kt.isReference && null k then ⟨kt, vt, m⟩
    else ⟨kt, vt, I.unsafeSet (kind kt) m k (shifted vt v)⟩ := by
  cases kt <;> cases vt <;> rfl

lemma call_plus (k : Key) (v : Word) : call I null ⟨kt, vt, m⟩ (.plus k v) =
    if kt.isReference && null k then ⟨kt, vt, m⟩
    else ⟨kt, vt, I.unsafePlus (kind kt) m k (shifted vt v)⟩ := by
  cases kt <;> cases vt <;> rfl

lemma call_remove (k : Key) : call I null ⟨kt, vt, m⟩ (.remove k) =
    if kt.isReference && null k then ⟨kt, vt, m⟩ else ⟨kt, vt, I.unsafeRemove (kind kt) m k⟩ := by
  cases kt <;> cases vt <;> rfl

lemma call_minus (k : Key) (hkt : kt.isFloating = false) :
    call I null ⟨kt, vt, m⟩ (.minus k) = ⟨kt, vt, I.unsafeMinus (kind kt) m k⟩ := by
  cases kt <;> first | rfl | cases hkt

lemma call_putAll (items : List (Key × Word)) :
    call I null ⟨kt, vt, m⟩ (.putAll items) = tMapPutAll I (kind kt) ⟨kt, vt, m⟩ items := by
  cases kt <;> rfl

def Matched (kt vt : Class) : Prop :=
  kt.isReference = false → 4 ≤ kt.referenceSize → kt.isFloating = vt.isFloating

lemma containsKey_eq (k : Key) (hkt : Matched kt vt) : containsKey I null ⟨kt, vt, m⟩ k =
    if kt.isReference && null k then false else I.containsKey (kind kt) m k := by
  cases kt <;> simp_all [Matched, containsKey, select, Class.isReference, Class.referenceSize,
    mapContainsKey, map8ContainsKey, map16ContainsKey, map32ContainsKey, map64ContainsKey,
    stringOrAny, floating32, floating64, Class.isFloating, kind]

lemma get_eq (k : Key) : get I null ⟨kt, vt, m⟩ k =
    if kt.isReference && null k then 0
    else I.unsafeGet (if vt = .f32 then 4 else 8) (kind kt) m k := by
  cases kt <;> cases vt <;> rfl

lemma mapNext_eq : mapNext I ⟨kt, vt, m⟩ = tMapNext I (kind kt) m := by cases kt <;> rfl

lemma key_eq (i : ℕ × ℕ) : key I ⟨kt, vt, m⟩ i = (I.getEntry (kind kt).width m i.2).1 := by
    cases kt <;> rfl

lemma tMapValue_eq (i : ℕ × ℕ) : tMapValue I ⟨kt, vt, m⟩ i =
    (I.getEntry (kind kt).width m i.2).2 := by cases kt <;> rfl

end Kinds

section Proof

variable {M Key : Type*} [DecidableEq Key] {I : ImplementMap M Key} {null : Key → Bool}
  {Rep : Kind → M → (Key → Option Word) → Prop}
  {kt vt : Class} {m : M} {f : Key → Option Word}

def low (w : Word) : Word := (w.setWidth 32).setWidth 64

lemma low_low (w : Word) : low (low w) = low w := by
  unfold low
  bv_omega

lemma low_shift (w : Word) : low (w >>> 32) = w >>> 32 := by
  unfold low
  bv_omega

structure Bound (null : Key → Bool) (kt vt : Class) (f : Key → Option Word) : Prop where
  null : ∀ k, (kt.isReference && null k) = true → f k = none
  low : ∀ k v, f k = some v → vt.referenceSize < 8 → low v = v

lemma Bound.some {k : Key} {v : Word} (h : Bound null kt vt f)
    (hk : (kt.isReference && null k) = false) (hv : vt.referenceSize < 8 → LangTypedMaps.low v =
      v) : Bound null kt vt (update f k (some v)) := by
  refine ⟨fun k' hk' => ?_, fun k' v' hf => ?_⟩
  · rw [update_of_ne (by rintro rfl; simp [hk] at hk')]
    exact h.null k' hk'
  · by_cases hkk : k' = k
    · subst hkk
      rw [update_self] at hf
      cases hf
      exact hv
    · rw [update_of_ne hkk] at hf
      exact h.low k' v' hf

lemma Bound.none (h : Bound null kt vt f) (k : Key) : Bound null kt vt (update f k none) := by
  refine ⟨fun k' hk' => ?_, fun k' v' hf => ?_⟩
  · rw [update_apply, h.null k' hk', ite_self]
  · rw [update_apply] at hf
    split_ifs at hf
    exact h.low k' v' hf

lemma low_shifted (vt : Class) (v : Word) (hv : vt.referenceSize < 8) :
    low (shifted vt v) = shifted vt v := by
  rw [shifted, if_pos hv, low_shift]

lemma putAll_spec (hI : Correct I null Rep) {items : List (Key × Word)} (h : Rep (kind kt) m f)
    (hf : Bound null kt vt f) (hnull : ∀ e ∈ items, (kt.isReference && null e.1) = false) :
    ∃ m', tMapPutAll I (kind kt) ⟨kt, vt, m⟩ items = ⟨kt, vt, m'⟩ ∧
      Rep (kind kt) m' (bind null kt vt f (.putAll items)) ∧
      Bound null kt vt (bind null kt vt f (.putAll items)) := by
  induction items generalizing m f with
  | nil => exact ⟨m, rfl, h, hf⟩
  | cons e items ih =>
    have he := hnull e mem_cons_self
    have hword : (if vt.isReference then e.2 else if roundUp vt.referenceSize 4 = 4 then low e.2
        else e.2) =
        if vt.referenceSize < 8 then low e.2 else e.2 := by cases vt <;> rfl
    have hstep : bind null kt vt f (.putAll (e :: items)) =
        bind null kt vt (update f e.1 (some (if vt.referenceSize < 8 then low e.2 else e.2)))
        (.putAll items) := by
      simp only [bind, foldl_cons, he, Bool.false_eq_true, if_false, low]
    rw [hstep]
    have hput := hI.put h (by rw [isReference_kind, he]) (if vt.referenceSize < 8 then low e.2
      else e.2)
    rw [← hword] at hput ⊢
    refine ih hput (hf.some he fun hv => ?_) fun e' he' => hnull e' (mem_cons_of_mem _ he')
    rw [hword, if_pos hv, low_low]

lemma call_spec (hI : Correct I null Rep) {op : Op Key} (h : Rep (kind kt) m f)
    (hf : Bound null kt vt f) (hc : Careful null kt op) :
    ∃ m', call I null ⟨kt, vt, m⟩ op = ⟨kt, vt, m'⟩ ∧ Rep (kind kt) m' (bind null kt vt f op) ∧
      Bound null kt vt (bind null kt vt f op) := by
  have hassign (k : Key) (v : Word) {m' : M} {map : AbstractMap M}
      (hcall : map = if kt.isReference && null k then ⟨kt, vt, m⟩ else ⟨kt, vt, m'⟩)
      (hrep : (kt.isReference && null k) = false →
        Rep (kind kt) m' (update f k (some (shifted vt v)))) :
      ∃ m'', map = ⟨kt, vt, m''⟩ ∧ Rep (kind kt) m'' (bind null kt vt f (.put k v)) ∧
        Bound null kt vt (bind null kt vt f (.put k v)) := by
    rw [hcall, bind]
    by_cases hk : (kt.isReference && null k) = true
    · rw [if_pos hk, if_pos hk]
      exact ⟨m, rfl, h, hf⟩
    · have hk' := Bool.eq_false_iff.mpr hk
      rw [if_neg hk, if_neg hk]
      exact ⟨m', rfl, hrep hk', hf.some hk' (low_shifted vt v)⟩
  have href (k : Key) (hk : (kt.isReference && null k) = false) :
      ((kind kt).isReference && null k) = false := by
    rw [isReference_kind, hk]
  cases op with
  | put k v => exact hassign k v (call_put k v) fun hk => hI.put h (href k hk) _
  | set k v => exact hassign k v (call_set k v) fun hk => hI.set h (href k hk) _
  | plus k v => exact hassign k v (call_plus k v) fun hk => hI.put (hI.clone h) (href k hk) _
  | putAll items =>
    rw [call_putAll]
    exact putAll_spec hI h hf hc
  | remove k =>
    rw [call_remove, bind]
    by_cases hk : (kt.isReference && null k) = true
    · rw [if_pos hk, update_eq_self_iff.mpr (hf.null k hk).symm]
      exact ⟨m, rfl, h, hf⟩
    · rw [if_neg hk]
      exact ⟨_, rfl, hI.remove h (href k (Bool.eq_false_iff.mpr hk)), hf.none k⟩
  | minus k =>
    rw [call_minus k hc.1]
    exact ⟨_, rfl, hI.remove (hI.clone h) (href k hc.2), hf.none k⟩

lemma calls_spec (hI : Correct I null Rep) {ops : List (Op Key)} (h : Rep (kind kt) m f)
    (hf : Bound null kt vt f) (hc : ∀ op ∈ ops, Careful null kt op) :
    ∃ m', ops.foldl (call I null) ⟨kt, vt, m⟩ = ⟨kt, vt, m'⟩ ∧
      Rep (kind kt) m' (ops.foldl (bind null kt vt) f) ∧
      Bound null kt vt (ops.foldl (bind null kt vt) f) := by
  induction ops generalizing m f with
  | nil => exact ⟨m, rfl, h, hf⟩
  | cons op ops ih =>
    obtain ⟨m', hcall, h', hf'⟩ := call_spec hI h hf (hc op mem_cons_self)
    rw [foldl_cons, foldl_cons, hcall]
    exact ih h' hf' fun op' hop' => hc op' (mem_cons_of_mem _ hop')

lemma agrees_of_rep (hI : Correct I null Rep) (h : Rep (kind kt) m f) (hf : Bound null kt vt f)
    (hkt : Matched kt vt) :
    Agrees I null ⟨kt, vt, m⟩ f := by
  have hfind (k : Key) (hk : ¬(kt.isReference && null k) = true) : I.findForGet (kind kt) m k =
      f k :=
    hI.find h (by rw [isReference_kind, Bool.eq_false_iff.mpr hk])
  refine ⟨fun k => ?_, fun k v hv => ?_, ?_⟩
  · rw [containsKey_eq k hkt]
    by_cases hk : (kt.isReference && null k) = true
    · rw [if_pos hk, hf.null k hk]
      simp
    · rw [if_neg hk, ImplementMap.containsKey, hfind k hk, Option.isSome_iff_ne_none]
  · have hk : ¬(kt.isReference && null k) = true := fun hk => by simp [hf.null k hk] at hv
    rw [get_eq, if_neg hk, ImplementMap.unsafeGet, hfind k hk, hv]
    dsimp only
    by_cases hvt : vt = .f32
    · subst hvt
      exact hf.low k v hv (by decide)
    · rw [if_neg hvt]
      rfl
  · obtain ⟨iters, hvisits, hnodup, hmem⟩ := hI.iterate h
    refine ⟨iters, by rwa [mapNext_eq], by simpa only [key_eq] using hnodup, fun k v => ?_⟩
    have hvalue (i : ℕ × ℕ) (hi : i ∈ iters) : value I ⟨kt, vt, m⟩ i =
        (I.getEntry (kind kt).width m i.2).2 := by
      rw [value]
      split_ifs with hvt
      · rw [mapValueF32, tMapValue_eq]
        exact hf.low _ _ ((hmem _ _).mpr ⟨i, hi, rfl⟩)
          (by simp [show vt = .f32 from hvt, Class.referenceSize])
      · exact tMapValue_eq i
    rw [hmem]
    refine exists_congr fun i => and_congr_right fun hi => ?_
    dsimp only
    rw [key_eq, hvalue i hi]

/-- The entry points agree when `ContainsKey` finds the value type floating as the key type is, and
`Minus` and `PutAll` are given the keys they are careful for. -/
theorem entry_points_agree (hI : Correct I null Rep) (map : AbstractMap M)
    (hmap : Rep (kind map.keyType) map.impl fun _ => none) (hkt : Matched map.keyType map.valueType)
    (ops : List (Op Key)) (hops : ∀ op ∈ ops, Careful null map.keyType op) :
    Agrees I null (ops.foldl (call I null) map)
      (ops.foldl (bind null map.keyType map.valueType) fun _ => none) := by
  obtain ⟨m, hm, hrep, hf⟩ :=
    calls_spec hI hmap (⟨fun _ _ => rfl, nofun⟩ : Bound null map.keyType map.valueType _) hops
  rw [hm]
  exact agrees_of_rep hI hrep hf hkt

end Proof

section Buckets

/-- The buckets of keys in a map with sixteen buckets and seed zero (`include/mai/value.h`);
references are hashed as their addresses. -/
def slot : Kind → ℕ → ℕ
  | .u8, k | .u32, k => k % 16
  | .u16, _ => 0
  | .f32, k => (k * k ||| 1) % 16
  | .f64, k => (k * k % 2 ^ 64 / 2 ^ 16 ||| 1) % 16
  | _, k => k * k % 2 ^ 64 / 2 ^ 16 % 16

abbrev Buckets := AList fun _ : ℕ × ℕ => Word

def buckets : ImplementMap Buckets ℕ where
  unsafePut K m k v := m.insert (slot K k, k) v
  unsafeSet K m k v := m.insert (slot K k, k) v
  unsafeRemove K m k := m.erase (slot K k, k)
  clone K m := (m.entries.map fun e => ⟨(slot K e.1.2, e.1.2), e.2⟩).toAList
  findForGet K m k := m.lookup (slot K k, k)
  findNextBucket _ m _ := if 0 < m.entries.length then (1, 1) else (0, 0)
  findNextEntry _ m i := if i.2 < m.entries.length then (1, i.2 + 1) else (0, 0)
  getEntry _ m i := ((m.entries[i - 1]?).map fun e => (e.1.2, e.2)).getD (0, 0)

structure Placed (K : Kind) (m : Buckets) (f : ℕ → Option Word) : Prop where
  slot : ∀ p ∈ m, p.1 = slot K p.2
  find : ∀ k, m.lookup (LangTypedMaps.slot K k, k) = f k

variable {K : Kind} {m : Buckets} {f : ℕ → Option Word}

lemma Placed.insert (h : Placed K m f) (k : ℕ) (v : Word) :
    Placed K (m.insert (LangTypedMaps.slot K k, k) v) (update f k (some v)) := by
  refine ⟨fun p hp => ?_, fun k' => ?_⟩
  · rcases (AList.mem_insert _).mp hp with rfl | hp
    · rfl
    · exact h.slot p hp
  · by_cases hk : k' = k
    · rw [hk, AList.lookup_insert, update_self]
    · rw [AList.lookup_insert_ne (fun hp => hk (congrArg Prod.snd hp)), update_of_ne hk, h.find]

lemma Placed.erase (h : Placed K m f) (k : ℕ) :
    Placed K (m.erase (LangTypedMaps.slot K k, k)) (update f k none) := by
  refine ⟨fun p hp => h.slot p (AList.mem_erase.mp hp).2, fun k' => ?_⟩
  by_cases hk : k' = k
  · rw [hk, AList.lookup_erase, update_self]
  · rw [AList.lookup_erase_ne (fun hp => hk (congrArg Prod.snd hp)), update_of_ne hk, h.find]

lemma Placed.clone (h : Placed K m f) : Placed K (buckets.clone K m) f := by
  have hmap : (m.entries.map fun e =>
      (⟨(LangTypedMaps.slot K e.1.2, e.1.2), e.2⟩ : (_ : ℕ × ℕ) × Word)) = m.entries := by
    conv_rhs => rw [← List.map_id m.entries]
    refine map_congr_left fun e he => ?_
    rw [← h.slot e.1 (mem_keys_of_mem he)]
    rfl
  have hlookup (p : ℕ × ℕ) : (buckets.clone K m).lookup p = m.lookup p := by
    rw [show buckets.clone K m = m.entries.toAList from congrArg List.toAList hmap,
      AList.lookup_to_alist]
    rfl
  refine ⟨fun p hp => h.slot p ?_, fun k => (hlookup _).trans (h.find k)⟩
  rw [← AList.lookup_isSome] at hp ⊢
  rwa [← hlookup]

lemma visits_buckets (b i n : ℕ) (hb : b = 1 ∨ i = 0 ∧ b = 0) (hn : m.entries.length = i + n) :
    Visits (tMapNext buckets K m) (b, i) ((List.range' i n).map fun j => (1, j + 1)) := by
  have hnext : tMapNext buckets K m (b, i) = if i < m.entries.length then (1, i + 1)
      else (0, 0) := by
    rcases hb with rfl | ⟨rfl, rfl⟩
    · exact if_pos (by simp)
    · exact if_neg (by simp)
  induction n generalizing b i with
  | zero => exact hnext.trans (if_neg (by omega))
  | succ n ih =>
    rw [range'_succ, map_cons]
    refine ⟨hnext.trans (if_pos (by omega)), by simp,
      ih 1 (i + 1) (.inl rfl) (by omega) (if_pos (by simp))⟩

lemma entries_buckets : ((List.range' 0 m.entries.length).map fun j => (1, j + 1)).map
    (fun i : ℕ × ℕ => buckets.getEntry K.width m i.2) = m.entries.map fun e => (e.1.2, e.2) := by
  refine ext_getElem (by simp) fun i hi hi' => ?_
  simp only [length_map] at hi'
  simp [buckets, hi']

lemma correct_buckets : Correct buckets (fun _ => false) Placed where
  put h _ v := h.insert _ v
  set h _ v := h.insert _ v
  remove h _ := h.erase _
  clone h := h.clone
  find h _ := h.find _
  iterate {K m f} h := by
    refine ⟨_, visits_buckets 0 0 _ (.inr ⟨rfl, rfl⟩) (Nat.zero_add _).symm, ?_, fun k v => ?_⟩
    · have hkeys : (((List.range' 0 m.entries.length).map fun j => (1, j + 1)).map
          fun i : ℕ × ℕ => (buckets.getEntry K.width m i.2).1) = m.keys.map Prod.snd := by
        rw [← Function.comp_def Prod.fst, ← List.map_map, entries_buckets, List.map_map, AList.keys,
          List.keys, List.map_map]
        rfl
      rw [hkeys]
      refine List.Nodup.map_on (fun p hp q hq heq => Prod.ext ?_ heq) m.keys_nodup
      rw [h.slot p hp, h.slot q hq, heq]
    · have hmem : (∃ i ∈ (List.range' 0 m.entries.length).map fun j => (1, j + 1),
          buckets.getEntry K.width m i.2 = (k, v)) ↔
          ∃ e ∈ m.entries, (e.1.2, e.2) = (k, v) := by
        rw [← List.mem_map, entries_buckets, List.mem_map]
      rw [hmem, ← h.find]
      refine Iff.trans AList.mem_lookup_iff ⟨fun he => ⟨_, he, rfl⟩, ?_⟩
      rintro ⟨⟨⟨i, k'⟩, v'⟩, he, heq⟩
      cases heq
      have hi := h.slot (i, k') (mem_keys_of_mem he)
      dsimp only at hi
      rwa [hi] at he

abbrev one : ℕ := 0x3f800000

abbrev two : ℕ := 0x40000000

theorem entry_points_agree_floats :
    let ops : List (Op ℕ) :=
  [.put one (3 <<< 32), .putAll [(two, 7)], .plus one (4 <<< 32), .remove two]
    Agrees buckets (fun _ => false) (ops.foldl (call buckets fun _ => false) ⟨.f32, .f32, ∅⟩)
      (ops.foldl (bind (fun _ => false) .f32 .f32) fun _ => none) :=
  entry_points_agree correct_buckets ⟨.f32, .f32, ∅⟩ ⟨nofun, fun _ => rfl⟩ (fun _ _ => rfl)
    _ (by simp [Careful])

/-- A bound integer key is not found by `ContainsKey` when the values are floating, and a floating
key is lost when `Minus` removes another one. -/
theorem entry_points_differ : Correct buckets (fun _ => false) Placed ∧
    ¬Agrees buckets (fun _ => false)
      ([.put 2 (3 <<< 32)].foldl (call buckets fun _ => false) ⟨.i32, .f32, ∅⟩)
      ([.put 2 (3 <<< 32)].foldl (bind (fun _ => false) .i32 .f32) fun _ => none) ∧
    ¬Agrees buckets (fun _ => false)
      ([.put one 0, .put two 0, .minus two].foldl (call buckets fun _ => false) ⟨.f32, .f32, ∅⟩)
      ([.put one 0, .put two 0, .minus two].foldl (bind (fun _ => false) .f32 .f32) fun _ =>
        none) :=
  ⟨correct_buckets, fun h => absurd ((h.containsKey 2).mpr (by decide)) (by decide +kernel),
    fun h => absurd ((h.containsKey one).mpr (by decide)) (by decide +kernel)⟩

end Buckets

end Mai.LangTypedMaps
