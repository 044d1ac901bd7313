import Mai.LangPage
import Mai.RunInvariant

/-!
# The old space

`OldSpace` (`lang/space.h`, `lang/space.cc`) allocates from its first page and takes a further one
from its free list, or from the system, when there is no chunk. `PurgeIfNeeded` moves empty pages
to the free list.
-/
namespace Mai.LangOldSpace

open LangPage LangSemiSpace RunInvariant Function Option

/-- Pages have numbers; `nextPage` is the next one that has not been used. -/
structure OldSpace where
  page : ℕ → Page
  nextPage : ℕ
  pages : List ℕ
  freeList : List ℕ
  maxFreedPages : ℤ
  allocatedPages : ℕ
  freedPages : ℕ
  usedSize : ℕ

def new (maxFreedPages : ℤ) : OldSpace := ⟨fun _ => initial, 0, [], [], maxFreedPages, 0, 0, 0⟩

def newPage (s : OldSpace) : OldSpace :=
  { s with
    page := Function.update s.page s.nextPage initial
    nextPage := s.nextPage + 1
    allocatedPages := s.allocatedPages + 1
    pages := s.nextPage :: s.pages }

/-- `GetOrNewFreePage`, with the page put in front of the pages. An overflow of the number of pages
has no result. -/
def takePage (s : OldSpace) : Option OldSpace :=
  match s.freeList with
  | n :: rest => some { s with freeList := rest, pages := n :: s.pages }
  | [] =>
    if s.allocatedPages + 1 < 2 ^ 31 then some (newPage s) else none

/-- The loop of `AllocateLockless`: further pages until one of them has a chunk. -/
def allocateLoop (request requested : ℕ) : ℕ → OldSpace → Option (OldSpace × ℕ × ℕ)
  | 0, _ => none
  | fuel + 1, s =>
    match s.pages with
    | [] => none
    | n :: _ =>
      (pageAllocate (s.page n) request requested).bind fun r =>
        match r.2 with
        | some offset => some ({ s with page := Function.update s.page n r.1 }, n, offset)
        | none => (takePage s).bind (allocateLoop request requested fuel)

def addSize (a n : ℕ) : ℕ := (a + n) % 2 ^ 64

def subSize (a n : ℕ) : ℕ := (a + (2 ^ 64 - n)) % 2 ^ 64

def firstPage (s : OldSpace) : Option OldSpace := if s.pages = [] then takePage s else some s

def roomyPage (s : OldSpace) (request : ℕ) : Option OldSpace :=
  match s.pages with
  | [] => none
  | n :: _ => if (s.page n).available < request then takePage s else some s

def allocate (s : OldSpace) (size : ℕ) : Option (OldSpace × ℕ × ℕ) :=
  (firstPage s).bind fun s =>
    (roomyPage s (getMinAllocationSize size)).bind fun s =>
      allocateLoop (getMinAllocationSize size) size (s.freeList.length + 2)
        { s with usedSize := addSize s.usedSize (getMinAllocationSize size) }

def free (s : OldSpace) (n offset stray : ℕ) : Option OldSpace :=
  ((s.page n).bitmap.allocatedSize offset).bind fun size =>
    (LangPage.free (s.page n) offset stray).map fun p =>
      { s with page := Function.update s.page n p, usedSize := subSize s.usedSize size }

def reinitialized (p : Page) : Page := { initial with live := p.live }

/-- `FreePage`. Above the limit the page is not put into its first state, and the last page of the
list is given back. -/
def freePage (s : OldSpace) (n : ℕ) : OldSpace :=
  if s.maxFreedPages ≤ s.freedPages then
    { s with pages := s.pages.erase n, freeList := (n :: s.freeList).dropLast }
  else
    { s with
      pages := s.pages.erase n
      freeList := n :: s.freeList
      page := Function.update s.page n (reinitialized (s.page n))
      freedPages := s.freedPages + 1 }

def purgePage (s : OldSpace) (n : ℕ) : OldSpace := if isEmpty (s.page n) then freePage s n else s

def purgeIfNeeded (s : OldSpace) : OldSpace := s.pages.foldl purgePage s

def pageSize : ℕ := 2 ^ 20

def getRSS (s : OldSpace) : Option ℕ :=
  if s.allocatedPages < 64 then some (pageSize * 2 ^ s.allocatedPages % 2 ^ 64) else none

/-- `stray` is the word behind the block that `Free` may take for the size of a chunk. -/
inductive Op
  | allocate (size : ℕ)
  | free (n offset stray : ℕ)
  | purgeIfNeeded

def step (s : OldSpace) : Op → Option OldSpace
  | .allocate size => if size ≤ area then (allocate s size).map Prod.fst else none
  | .free n offset stray =>
    if n ∈ s.pages ∧ ∃ b ∈ (s.page n).live, b.offset = offset then free s n offset stray else none
  | .purgeIfNeeded => some (purgeIfNeeded s)

def PagesWellFormed (s : OldSpace) : Prop := ∀ n, WellFormed (s.page n)

def Tidy (s : OldSpace) : Op → Prop
  | .free n offset stray => Bounded (s.page n) offset stray
  | _ => True

instance decidableTidy (s : OldSpace) : (op : Op) → Decidable (Tidy s op)
  | .allocate _ => inferInstanceAs (Decidable True)
  | .free n offset stray => inferInstanceAs (Decidable (Bounded (s.page n) offset stray))
  | .purgeIfNeeded => inferInstanceAs (Decidable True)

section Pages

variable {s t : OldSpace} {p : Page}

lemma request_spec {size : ℕ} (h : size ≤ area) :
    getMinAllocationSize size % 8 = 0 ∧ 16 ≤ getMinAllocationSize size ∧
      size ≤ getMinAllocationSize size
      ∧ getMinAllocationSize size ≤ area := by
  have harea : area = 1032192 := rfl
  rw [getMinAllocationSize]
  split_ifs with hsmall
  · omega
  · omega

def AllSound (s : OldSpace) : Prop := ∀ n, Sound (s.page n)

lemma AllSound.update (h : AllSound s) {n : ℕ} (hp : Sound p) (m : ℕ) :
    Sound (Function.update s.page n p m) := by
  by_cases hm : m = n
  · subst hm
    rwa [update_self]
  · rw [update_of_ne hm]
    exact h m

lemma AllSound.takePage (h : AllSound s) (ht : LangOldSpace.takePage s = some t) : AllSound t := by
  unfold LangOldSpace.takePage at ht
  split at ht
  · obtain rfl := Option.some.inj ht
    exact h
  · split_ifs at ht with hlt
    obtain rfl := Option.some.inj ht
    exact h.update sound_initial

lemma AllSound.allocateLoop {request requested fuel : ℕ} (hmod : request % 8 = 0)
    (hwide : 16 ≤ request) (hle : requested ≤ request) {a : ℕ × ℕ} (h : AllSound s)
    (ht : LangOldSpace.allocateLoop request requested fuel s = some (t, a)) : AllSound t := by
  induction fuel generalizing s with
  | zero => cases ht
  | succ fuel ih =>
    rw [LangOldSpace.allocateLoop] at ht
    split at ht
    · cases ht
    next n _ _ =>
    obtain ⟨⟨p, r⟩, hp, ht⟩ := bind_eq_some_iff.mp ht
    cases r with
    | some offset =>
      obtain ⟨rfl, -⟩ := Prod.mk.inj (Option.some.inj ht)
      exact h.update ((h n).pageAllocate hmod hwide hle hp)
    | none =>
      obtain ⟨u, hu, ht⟩ := bind_eq_some_iff.mp ht
      exact ih (h.takePage hu) ht

lemma AllSound.firstPage (h : AllSound s) (ht : LangOldSpace.firstPage s = some t) :
    AllSound t := by
  unfold LangOldSpace.firstPage at ht
  split_ifs at ht
  · exact h.takePage ht
  · obtain rfl := Option.some.inj ht
    exact h

lemma AllSound.roomyPage {request : ℕ} (h : AllSound s)
    (ht : LangOldSpace.roomyPage s request = some t) : AllSound t := by
  unfold LangOldSpace.roomyPage at ht
  split at ht
  · cases ht
  · split_ifs at ht
    · exact h.takePage ht
    · obtain rfl := Option.some.inj ht
      exact h

lemma AllSound.allocate (h : AllSound s) {size : ℕ} {a : ℕ × ℕ} (hsize : size ≤ area)
    (ht : LangOldSpace.allocate s size = some (t, a)) : AllSound t := by
  obtain ⟨hmod, hwide, hle, -⟩ := request_spec hsize
  obtain ⟨u, hu, ht⟩ := bind_eq_some_iff.mp ht
  obtain ⟨v, hv, ht⟩ := bind_eq_some_iff.mp ht
  have hsound : AllSound v := (h.firstPage hu).roomyPage hv
  exact AllSound.allocateLoop hmod hwide hle (s := { v with usedSize := addSize v.usedSize _ })
    hsound ht

lemma live_of_isEmpty (h : Sound p) (hempty : isEmpty p = true) : p.live = [] := by
  have hbytes := h.bytes
  rw [isEmpty, decide_eq_true_iff] at hempty
  cases hlive : p.live with
  | nil => rfl
  | cons b rest =>
    have hpos := (h.inside (b := b) (by rw [hlive]; exact List.mem_cons_self)).2
    rw [liveBytes, hlive, List.map_cons, List.sum_cons] at hbytes
    omega

lemma reinitialized_eq (h : Sound p) (hempty : isEmpty p = true) : reinitialized p = initial := by
  rw [reinitialized, live_of_isEmpty h hempty]
  rfl

lemma AllSound.purgePage (h : AllSound s) (n : ℕ) : AllSound (LangOldSpace.purgePage s n) := by
  unfold LangOldSpace.purgePage freePage
  split_ifs with hempty hmax
  · exact h
  · refine h.update ?_
    rw [reinitialized_eq (h n) hempty]
    exact sound_initial
  · exact h

lemma AllSound.purgeIfNeeded (h : AllSound s) : AllSound (LangOldSpace.purgeIfNeeded s) := by
  unfold LangOldSpace.purgeIfNeeded
  generalize s.pages = ns
  induction ns generalizing s with
  | nil => exact h
  | cons n ns ih => exact ih (h.purgePage n)

lemma AllSound.step {op : Op} (h : AllSound s) (htidy : Tidy s op)
    (ht : LangOldSpace.step s op = some t) : AllSound t := by
  cases op with
  | allocate size =>
    simp only [LangOldSpace.step] at ht
    split_ifs at ht with hsize
    obtain ⟨⟨u, a⟩, hu, rfl⟩ := map_eq_some_iff.mp ht
    exact h.allocate hsize hu
  | free n offset stray =>
    simp only [LangOldSpace.step] at ht
    split_ifs at ht with hlive
    obtain ⟨-, b, hb, rfl⟩ := hlive
    obtain ⟨q, hq, hsound, -⟩ := (h n).free hb htidy
    rw [LangOldSpace.free, (h n).allocatedSize hb, bind_some, hq, map_some] at ht
    obtain rfl := Option.some.inj ht
    exact h.update hsound
  | purgeIfNeeded =>
    obtain rfl := Option.some.inj ht
    exact h.purgeIfNeeded

/-- The pages of the old space stay well formed while what is read behind a freed block is bounded.
-/
theorem pages_wellFormed (maxFreedPages : ℤ) (ops : List Op)
    (htidy : EachStep step Tidy (new maxFreedPages) ops) :
    Always step PagesWellFormed (new maxFreedPages) ops := by
  have hsound : Always step AllSound (new maxFreedPages) ops :=
    always_of_eachStep (fun _ _ _ hc h ht => h.step hc ht) (fun _ => sound_initial) htidy
  intro bs t hb ht n
  exact (hsound bs t hb ht n).wellFormed

theorem pages_wellFormed_neighbour :
    Always step PagesWellFormed (new 4) [.allocate 32, .allocate 16, .free 0 0 24, .purgeIfNeeded,
      .allocate 24] :=
  pages_wellFormed 4 _ (eachStep_of_checkEach (by decide +kernel))

/-- Eight bytes are lost when a chunk of 32 bytes is used for 24. They are taken for a chunk of 24
bytes, half of which belongs to the block behind them. -/
theorem lost_bytes_merged :
    ¬ Always step PagesWellFormed (new 4) [.allocate 32, .allocate 16, .free 0 0 0, .allocate 24,
      .free 0 0 24] := by
  have hrun : ((run step (new 4) [.allocate 32, .allocate 16, .free 0 0 0, .allocate 24,
      .free 0 0 24]).map fun s =>
      ((s.page 0).regions 1, (s.page 0).live)) =
        some ([⟨0, 48⟩], [⟨32, 16, 16⟩]) := by decide +kernel
  obtain ⟨s, hs, hpage⟩ := map_eq_some_iff.mp hrun
  obtain ⟨hregion, hlive⟩ := Prod.mk.inj hpage
  intro h
  have hapart := (h _ s List.prefix_rfl hs 0).separate 1 ⟨0, 48⟩
    (by rw [hregion]; exact List.mem_singleton_self _)
    ⟨32, 16, 16⟩ (by rw [hlive]; exact List.mem_singleton_self _)
  exact absurd hapart (by unfold Apart; decide)

end Pages

section Serving

variable {s t : OldSpace} {request requested : ℕ}

lemma findFitRegion_initial (hrequest : request ≤ area) :
    findFitRegion initial request = some 5 := by
  refine List.find?_range_eq_some.mpr ⟨?_, by decide, fun j hj => ?_⟩
  · rw [initial_regions, if_pos rfl]
    simpa using hrequest
  · rw [initial_regions, if_neg (by omega)]
    rfl

lemma takePage_newPage (hfree : s.freeList = []) (ht : takePage s = some t) :
    t = newPage s ∧ s.allocatedPages + 1 < 2 ^ 31 := by
  unfold takePage at ht
  rw [hfree] at ht
  dsimp only at ht
  split_ifs at ht with hlt
  exact ⟨(Option.some.inj ht).symm, hlt⟩

lemma newPage_page : (newPage s).page s.nextPage = initial := update_self ..

lemma allocateLoop_head {fuel n : ℕ} {rest : List ℕ} {q : Page} {offset : ℕ}
    (hpages : s.pages = n :: rest)
    (hpage : pageAllocate (s.page n) request requested = some (q, some offset)) :
    allocateLoop request requested (fuel + 1) s =
      some ({ s with page := Function.update s.page n q }, n, offset) := by
  rw [allocateLoop, hpages]
  dsimp only
  rw [hpage]
  rfl

lemma allocateLoop_next {fuel n : ℕ} {rest : List ℕ} (hpages : s.pages = n :: rest)
    (hfit : findFitRegion (s.page n) request = none) :
    allocateLoop request requested (fuel + 1) s =
      (takePage s).bind (allocateLoop request requested fuel) := by
  rw [allocateLoop, hpages]
  dsimp only
  rw [pageAllocate_none hfit]
  rfl

end Serving

end Mai.LangOldSpace
