import Mai.CoreLruCache

/-! Calls of `GetOrLoad` by several threads (`core/lru-cache-v1.cc`), with the stripe locks they
take. -/
namespace Mai.CoreLruLoading
open RunInvariant CoreLruCache Function Option

variable {K V T : Type*}

section Model

inductive Place (K V : Type*)
  | outside
  /-- Before `Get`. -/
  | looking (key : K)
  /-- Before `TryLock`. -/
  | missed (key : K)
  /-- Before the loader returns. -/
  | loading (key : K)
  /-- Before `Insert`. -/
  | loaded (key : K) (value : V)
  /-- Before `Unlock`. -/
  | stored (key : K)
  deriving DecidableEq, Repr

structure State (K V T : Type*) where
  shard : LRUCacheShard K V
  /-- Who has locked each stripe. -/
  holder : ℕ → Option T
  place : T → Place K V

def new : State K V T := ⟨LRUCacheShard.new, fun _ => none, fun _ => .outside⟩

inductive Action (K V T : Type*)
  | call (t : T) (key : K)
  | get (t : T)
  | tryLock (t : T)
  /-- The loader returns, with an error if there is no value. -/
  | load (t : T) (loaded : Option V)
  | store (t : T)
  | unlock (t : T)
  deriving DecidableEq, Repr

variable [LinearOrder K] [DecidableEq T]

namespace State

def goto (s : State K V T) (t : T) (place : Place K V) : State K V T :=
  { s with place := update s.place t place }

end State

def step (o : Options K) (s : State K V T) : Action K V T → Option (State K V T)
  | .call t key =>
    match s.place t with
    | .outside => some (s.goto t (.looking key))
    | _ => none
  | .get t =>
    match s.place t with
    | .looking key => (s.shard.get o key).map fun (shard, x) =>
        match x with
        | some id => { s with shard := shard.addRef id }.goto t .outside
        | none => { s with shard := shard }.goto t (.missed key)
    | _ => none
  | .tryLock t =>
    match s.place t with
    | .missed key =>
      match s.holder (o.stripe key) with
      | none => some ({ s with
          holder := update s.holder (o.stripe key) (some t) }.goto t (.loading key))
      | some _ => some (s.goto t (.looking key))
    | _ => none
  | .load t loaded =>
    match s.place t with
    | .loading key =>
      match loaded with
      | none => some (s.goto t .outside)
      | some value => some (s.goto t (.loaded key value))
    | _ => none
  | .store t =>
    match s.place t with
    | .loaded key value =>
      (s.shard.insert o key value).bind fun shard => (shard.purgeIfNeeded o false).map fun shard =>
        { s with shard := shard.addRef s.shard.handles.length }.goto t (.stored key)
    | _ => none
  | .unlock t =>
    match s.place t with
    | .stored key => some ({ s with holder := update s.holder (o.stripe key) none }.goto t .outside)
    | _ => none

end Model

section Locks
variable [LinearOrder K] [DecidableEq T] {o : Options K} {s s' : State K V T} {a : Action K V T}
  {t : T}

def Place.stripe (o : Options K) : Place K V → Option ℕ
  | .loading key | .loaded key _ | .stored key => some (o.stripe key)
  | _ => none

/-- No stripe is locked by a call that has returned, and a call that looks for its key comes back
with it or into its critical section unless another one is in there. -/
structure Released (o : Options K) (s : State K V T) : Prop where
  inside : ∀ i t, s.holder i = some t → (s.place t).stripe o = some i
  enters : ∀ t key, s.place t = .looking key → (∀ u, (s.place u).stripe o ≠ some (o.stripe key)) →
    ∃ s₁, step o s (.get t) = some s₁ ∧
      (s₁.place t = .outside ∨ ∃ s₂, step o s₁ (.tryLock t) = some s₂ ∧ s₂.place t = .loading key)

def Loads (_ : State K V T) : Action K V T → Prop
  | .load _ none => False
  | _ => True

structure LockInv (o : Options K) (s : State K V T) : Prop where
  inside : ∀ i t, s.holder i = some t → (s.place t).stripe o = some i
  owns : ∀ t i, (s.place t).stripe o = some i → s.holder i = some t
  shard : ∃ l, ShardInv o s.shard l

omit [DecidableEq T] in
lemma lockInv_new (o : Options K) : LockInv o (new : State K V T) where
  inside i t h := by cases h
  owns t i h := by cases h
  shard := ⟨[], inv_new o⟩

omit [LinearOrder K] in
lemma stripe_goto (s : State K V T) (t u : T) (place : Place K V) :
    ((s.goto t place).place u).stripe o = if u = t then place.stripe o
      else (s.place u).stripe o := by
  change (update s.place t place u).stripe o = _
  rw [update_apply]
  split_ifs <;> rfl

lemma LockInv.goto (h : LockInv o s) {shard : LRUCacheShard K V} (hshard : ∃ l, ShardInv o shard l)
    {place : Place K V} (hsame : place.stripe o = (s.place t).stripe o) :
    LockInv o ({ s with shard := shard }.goto t place) := by
  have hstripe : ∀ u, (({ s with shard := shard }.goto t place).place u).stripe o =
      (s.place u).stripe o := by
    intro u
    rw [stripe_goto]
    split_ifs with hu
    · rw [hu, hsame]
    · rfl
  constructor
  · intro i u hu
    rw [hstripe]
    exact h.inside i u hu
  · intro u i hu
    rw [hstripe] at hu
    exact h.owns u i hu
  · exact hshard

lemma LockInv.lock (h : LockInv o s) {key : K} (hplace : s.place t = .missed key)
    (hfree : s.holder (o.stripe key) = none) :
    LockInv o ({ s with holder := update s.holder (o.stripe key) (some t) }.goto t (.loading key))
      where
  inside i u hu := by
    change update s.holder (o.stripe key) (some t) i = some u at hu
    rw [update_apply] at hu
    rw [stripe_goto]
    split_ifs at hu with hi
    · obtain rfl := Option.some.inj hu
      rw [if_pos rfl, hi]
      rfl
    · have hinside := h.inside i u hu
      have hne : u ≠ t := by
        rintro rfl
        rw [hplace] at hinside
        cases hinside
      rw [if_neg hne]
      exact hinside
  owns u i hu := by
    change update s.holder (o.stripe key) (some t) i = some u
    rw [stripe_goto] at hu
    rw [update_apply]
    split_ifs at hu with hut
    · rw [if_pos (Option.some.inj hu).symm, hut]
    · have howns := h.owns u i hu
      have hne : i ≠ o.stripe key := by
        rintro rfl
        rw [hfree] at howns
        cases howns
      rw [if_neg hne]
      exact howns
  shard := h.shard

lemma LockInv.unlock (h : LockInv o s) {key : K} (hplace : s.place t = .stored key) :
    LockInv o ({ s with holder := update s.holder (o.stripe key) none }.goto t .outside) where
  inside i u hu := by
    change update s.holder (o.stripe key) none i = some u at hu
    rw [update_apply] at hu
    split_ifs at hu with hi
    have hinside := h.inside i u hu
    have hne : u ≠ t := by
      rintro rfl
      rw [hplace] at hinside
      exact hi (Option.some.inj hinside).symm
    rw [stripe_goto, if_neg hne]
    exact hinside
  owns u i hu := by
    rw [stripe_goto] at hu
    split_ifs at hu with hut
    · cases hu
    · have howns := h.owns u i hu
      have hmine := h.owns t (o.stripe key) (by rw [hplace]; rfl)
      have hne : i ≠ o.stripe key := by
        rintro rfl
        exact hut (Option.some.inj (howns.symm.trans hmine))
      change update s.holder (o.stripe key) none i = some u
      rw [update_of_ne hne]
      exact howns
  shard := h.shard

inductive Moves (o : Options K) (s : State K V T) : Action K V T → State K V T → Prop
  | called {t : T} {key : K} (h : s.place t = .outside) :
      Moves o s (.call t key) (s.goto t (.looking key))
  | found {t : T} {key : K} {shard : LRUCacheShard K V} {id : ℕ} (h : s.place t = .looking key)
      (hget : s.shard.get o key = some (shard, some id)) :
      Moves o s (.get t) ({ s with shard := shard.addRef id }.goto t .outside)
  | missed {t : T} {key : K} {shard : LRUCacheShard K V} (h : s.place t = .looking key)
      (hget : s.shard.get o key = some (shard, none)) :
      Moves o s (.get t) ({ s with shard := shard }.goto t (.missed key))
  | locked {t : T} {key : K} (h : s.place t = .missed key)
      (hfree : s.holder (o.stripe key) = none) :
      Moves o s (.tryLock t)
        ({ s with holder := update s.holder (o.stripe key) (some t) }.goto t (.loading key))
  | busy {t : T} {key : K} (h : s.place t = .missed key) :
      Moves o s (.tryLock t) (s.goto t (.looking key))
  | failed {t : T} {key : K} (h : s.place t = .loading key) :
      Moves o s (.load t none) (s.goto t .outside)
  | loaded {t : T} {key : K} {value : V} (h : s.place t = .loading key) :
      Moves o s (.load t (some value)) (s.goto t (.loaded key value))
  | stored {t : T} {key : K} {value : V} {shard shard' : LRUCacheShard K V}
      (h : s.place t = .loaded key value)
      (hinsert : s.shard.insert o key value = some shard) (hpurge : shard.purgeIfNeeded o false =
        some shard') :
      Moves o s (.store t)
        ({ s with shard := shard'.addRef s.shard.handles.length }.goto t (.stored key))
  | unlocked {t : T} {key : K} (h : s.place t = .stored key) :
      Moves o s (.unlock t)
        ({ s with holder := update s.holder (o.stripe key) none }.goto t .outside)

lemma moves_of_step (hstep : step o s a = some s') : Moves o s a s' := by
  cases a with
  | call t key =>
    cases hplace : s.place t <;> simp only [step, hplace, reduceCtorEq, Option.some.injEq] at hstep
    exact hstep ▸ .called hplace
  | get t =>
    cases hplace : s.place t <;> simp only [step, hplace, reduceCtorEq, map_eq_some_iff] at hstep
    obtain ⟨⟨shard, x⟩, hget, rfl⟩ := hstep
    cases x with
    | none => exact .missed hplace hget
    | some id => exact .found hplace hget
  | tryLock t =>
    cases hplace : s.place t <;> simp only [step, hplace, reduceCtorEq] at hstep
    rename_i key
    cases hfree : s.holder (o.stripe key) with
    | none =>
      rw [hfree] at hstep
      exact Option.some.inj hstep ▸ .locked hplace hfree
    | some u =>
      rw [hfree] at hstep
      exact Option.some.inj hstep ▸ .busy hplace
  | load t loaded =>
    cases hplace : s.place t <;> simp only [step, hplace, reduceCtorEq] at hstep
    cases loaded with
    | none => exact Option.some.inj hstep ▸ .failed hplace
    | some value => exact Option.some.inj hstep ▸ .loaded hplace
  | store t =>
    cases hplace : s.place t <;>
      simp only [step, hplace, reduceCtorEq, bind_eq_some_iff, map_eq_some_iff] at hstep
    obtain ⟨shard, hinsert, shard', hpurge, rfl⟩ := hstep
    exact .stored hplace hinsert hpurge
  | unlock t =>
    cases hplace : s.place t <;> simp only [step, hplace, reduceCtorEq, Option.some.injEq] at hstep
    exact hstep ▸ .unlocked hplace

lemma LockInv.step (h : LockInv o s) (hloads : Loads s a) (hmoves : Moves o s a s') :
    LockInv o s' := by
  obtain ⟨l, hshard⟩ := h.shard
  cases hmoves with
  | called hplace => exact h.goto h.shard (by rw [hplace]; rfl)
  | @found t key shard id hplace hget =>
    obtain ⟨shard', x, hget', -, hinv, -, -⟩ := hshard.get_spec key
    obtain ⟨rfl, rfl⟩ := Prod.mk.inj (Option.some.inj (hget'.symm.trans hget))
    exact h.goto ⟨l, hinv.addRef id⟩ (by rw [hplace]; rfl)
  | @missed t key shard hplace hget =>
    obtain ⟨shard', x, hget', -, hinv, -, -⟩ := hshard.get_spec key
    obtain ⟨rfl, rfl⟩ := Prod.mk.inj (Option.some.inj (hget'.symm.trans hget))
    exact h.goto ⟨l, hinv⟩ (by rw [hplace]; rfl)
  | locked hplace hfree => exact h.lock hplace hfree
  | busy hplace => exact h.goto h.shard (by rw [hplace]; rfl)
  | failed hplace => exact absurd hloads id
  | loaded hplace => exact h.goto h.shard (by rw [hplace]; rfl)
  | @stored t key value shard shard' hplace hinsert hpurge =>
    obtain ⟨table, u, l', hinsert', -, -, -, -, hinv, -⟩ := hshard.insert_spec key value
    obtain rfl := Option.some.inj (hinsert'.symm.trans hinsert)
    obtain ⟨l'', hinv', -⟩ := hinv.purgeIfNeeded hpurge
    exact h.goto ⟨l'', hinv'.addRef _⟩ (by rw [hplace]; rfl)
  | unlocked hplace => exact h.unlock hplace

lemma LockInv.released (h : LockInv o s) : Released o s where
  inside := h.inside
  enters t key hplace hfree := by
    obtain ⟨l, hshard⟩ := h.shard
    obtain ⟨shard, x, hget, -⟩ := hshard.get_spec key
    have hholder : s.holder (o.stripe key) = none := by
      cases hheld : s.holder (o.stripe key) with
      | none => rfl
      | some u => exact absurd (h.inside _ u hheld) (hfree u)
    cases x with
    | some id =>
      refine ⟨{ s with shard := shard.addRef id }.goto t .outside, ?_, .inl (update_self ..)⟩
      simp only [CoreLruLoading.step, hplace, hget, map_some]
    | none =>
      set s₁ := { s with shard := shard }.goto t (.missed key)
      have hmissed : s₁.place t = .missed key := update_self ..
      have hfree₁ : s₁.holder (o.stripe key) = none := hholder
      refine ⟨s₁, ?_,
        .inr ⟨{ s₁ with holder := update s₁.holder (o.stripe key) (some t) }.goto t (.loading key),
          ?_, update_self ..⟩⟩
      · simp only [CoreLruLoading.step, hplace, hget, map_some]
        rfl
      · simp only [CoreLruLoading.step, hmissed, hfree₁]

/-- In every interleaving of calls of `GetOrLoad` the stripes are released by the calls that return,
and can be entered again, exactly if no loader fails. -/
theorem stripes_released_iff (o : Options K) (actions : List (Action K V T)) :
    Always (step o) (Released o) new actions ↔ EachStep (step o) Loads new actions := by
  refine always_iff_of_broken (fun s h => h.released)
    (fun s a t hc h ht => h.step hc (moves_of_step ht)) ?_ (lockInv_new o)
  intro s a t h ht hreleased
  cases moves_of_step ht with
  | @failed u key hplace =>
    have howns := h.owns u (o.stripe key) (by rw [hplace]; rfl)
    have hinside := hreleased.inside (o.stripe key) u howns
    rw [stripe_goto, if_pos rfl] at hinside
    cases hinside
  | called _ => trivial
  | found _ _ => trivial
  | missed _ _ => trivial
  | locked _ _ => trivial
  | busy _ => trivial
  | loaded _ => trivial
  | stored _ _ _ => trivial
  | unlocked _ => trivial

end Locks

/-- A loader fails in one call; the next call for the key finds its stripe locked by a thread that
has returned, and can only look again. -/
theorem stripe_left_locked :
    ∃ s : State ℕ ℕ ℕ, run (step (numbers 8)) new [.call 0 1, .get 0, .tryLock 0, .load 0 none,
      .call 1 1, .get 1] = some s ∧
      s.place 0 = .outside ∧ s.holder 0 = some 0 ∧ s.place 1 = .missed 1 ∧
      ∃ t, step (numbers 8) s (.tryLock 1) = some t ∧ t.place 1 = .looking 1 := by
  have hrun : (run (step (numbers 8)) (new : State ℕ ℕ ℕ)
      [.call 0 1, .get 0, .tryLock 0, .load 0 none, .call 1 1, .get 1]).any (fun s =>
        s.place 0 = .outside ∧ s.holder 0 = some 0 ∧ s.place 1 = .missed 1 ∧
          (step (numbers 8) s (.tryLock 1)).any (fun t => t.place 1 = .looking 1) = true) =
          true := by decide +kernel
  obtain ⟨s, hs, hlocked⟩ := (Option.any_eq_true _ _).mp hrun
  obtain ⟨houtside, hheld, hmissed, hagain⟩ := of_decide_eq_true hlocked
  obtain ⟨t, ht, hlooking⟩ := (Option.any_eq_true _ _).mp hagain
  exact ⟨s, hs, houtside, hheld, hmissed, t, ht, of_decide_eq_true hlooking⟩

end Mai.CoreLruLoading
