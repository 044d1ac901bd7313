import Mai.LangOldSpace

/-!
# The counters of the old space

Bytes in use, available bytes of the pages, free pages, pages and resident size (`lang/space.h`).
Remainders that are lost, pages that are taken from the free list and pages that are freed above
the limit each leave one counter behind; the resident size is a shift where a product is meant.
-/
namespace Mai.LangOldSpaceCounters

open LangPage LangOldSpace RunInvariant Function List Option
open LangSemiSpace (getMinAllocationSize)

structure Counted (s : OldSpace) : Prop where
  used : s.usedSize = (s.pages.map fun n => liveBytes (s.page n)).sum
  available : ∀ n ∈ s.pages, (s.page n).available + liveBytes (s.page n) = area
  recycled : ∀ n ∈ s.freeList, s.page n = initial
  freed : s.freedPages = s.freeList.length
  allocated : s.allocatedPages = s.pages.length + s.freeList.length

def Accounted (s : OldSpace) : Prop :=
  Counted s ∧ getRSS s = some (pageSize * (s.pages.length + s.freeList.length))

def Kept (p : Page) (request : ℕ) : Prop :=
  ∀ fit ∈ findFitRegion p request, ∀ c ∈ (p.regions fit).head?, c.size = request ∨
    request + chunkHeader < c.size

def serving (s : OldSpace) (request : ℕ) : Option ℕ :=
  s.pages.head?.filter fun n => request ≤ (s.page n).available ∧
    (findFitRegion (s.page n) request).isSome

def Careful (s : OldSpace) : Op → Prop
  | .allocate size =>
    match serving s (getMinAllocationSize size) with
    | some n => Kept (s.page n) (getMinAllocationSize size)
    | none => s.freeList = [] ∧ Kept initial (getMinAllocationSize size)
  | .free n offset stray => Bounded (s.page n) offset stray
  | .purgeIfNeeded => s.freedPages + s.pages.countP (fun n => isEmpty (s.page n)) ≤ s.maxFreedPages

instance decidableKept (p : Page) (request : ℕ) : Decidable (Kept p request) :=
  inferInstanceAs (Decidable (∀ fit ∈ findFitRegion p request, ∀ c ∈ (p.regions fit).head?,
    c.size = request ∨ request + chunkHeader < c.size))

instance decidableCareful (s : OldSpace) : (op : Op) → Decidable (Careful s op)
  | .allocate size =>
    match h : serving s (getMinAllocationSize size) with
    | some n => decidable_of_iff (Kept (s.page n) (getMinAllocationSize size))
        (by simp only [Careful, h])
    | none =>
      decidable_of_iff (s.freeList = [] ∧ Kept initial (getMinAllocationSize size))
        (by simp only [Careful, h])
  | .free n offset stray => inferInstanceAs (Decidable (Bounded (s.page n) offset stray))
  | .purgeIfNeeded =>
    inferInstanceAs (Decidable (s.freedPages + s.pages.countP (fun n => isEmpty (s.page n)) ≤
      s.maxFreedPages))

section Serving

variable {s t : OldSpace} {request requested : ℕ} {q : Page} {n : ℕ}

lemma serving_some (hserving : serving s request = some n) :
    (∃ rest, s.pages = n :: rest) ∧ request ≤ (s.page n).available
      ∧ ∃ fit, findFitRegion (s.page n) request = some fit := by
  obtain ⟨hhead, hserves⟩ := filter_eq_some_iff.mp hserving
  obtain ⟨hroom, hfit⟩ := of_decide_eq_true hserves
  exact ⟨head?_eq_some_iff.mp hhead, hroom, isSome_iff_exists.mp hfit⟩

lemma allocate_serving {size n offset : ℕ}
    (hserving : serving s (getMinAllocationSize size) = some n)
    (hq : pageAllocate (s.page n) (getMinAllocationSize size) size = some (q, some offset)) :
    allocate s size = some ({ s with
      page := update s.page n q
      usedSize := addSize s.usedSize (getMinAllocationSize size) }, n, offset) := by
  obtain ⟨⟨rest, hpages⟩, hroom, -⟩ := serving_some hserving
  have hfirst : firstPage s = some s := if_neg (by rw [hpages]; exact cons_ne_nil _ _)
  have hroomy : roomyPage s (getMinAllocationSize size) = some s := by
    rw [roomyPage, hpages]
    exact if_neg (not_lt.mpr hroom)
  rw [allocate, hfirst, bind_some, hroomy, bind_some]
  exact allocateLoop_head
    (s := { s with usedSize := addSize s.usedSize (getMinAllocationSize size) }) hpages hq

lemma roomyPage_newPage (hrequest : request ≤ area) :
    roomyPage (newPage s) request = some (newPage s) := by
  refine if_neg (not_lt.mpr ?_)
  rw [newPage_page]
  exact hrequest

lemma allocate_newPage {size offset : ℕ} {a : ℕ × ℕ}
    (hserving : serving s (getMinAllocationSize size) = none) (hfree : s.freeList = [])
    (hrequest : getMinAllocationSize size ≤ area)
    (hq : pageAllocate initial (getMinAllocationSize size) size = some (q, some offset))
    (ht : allocate s size = some (t, a)) :
    s.allocatedPages + 1 < 2 ^ 31 ∧ t = { newPage s with
      page := update (newPage s).page s.nextPage q
      usedSize := addSize s.usedSize (getMinAllocationSize size) } := by
  have hhead : ∀ fuel, allocateLoop (getMinAllocationSize size) size (fuel + 1)
      { newPage s with usedSize := addSize s.usedSize (getMinAllocationSize size) } =
        some ({ newPage s with
        page := update (newPage s).page s.nextPage q
        usedSize := addSize s.usedSize (getMinAllocationSize size) }, s.nextPage, offset) :=
          fun fuel =>
    allocateLoop_head
      (s := { newPage s with usedSize := addSize s.usedSize (getMinAllocationSize size) }) rfl
      (by dsimp only; rw [newPage_page]; exact hq)
  obtain ⟨u, hu, ht⟩ := bind_eq_some_iff.mp ht
  obtain ⟨v, hv, ht⟩ := bind_eq_some_iff.mp ht
  cases hpages : s.pages with
  | nil =>
    rw [firstPage, if_pos hpages] at hu
    obtain ⟨rfl, hfew⟩ := takePage_newPage hfree hu
    rw [roomyPage_newPage hrequest] at hv
    obtain rfl := Option.some.inj hv
    exact ⟨hfew, (Prod.mk.inj (Option.some.inj (ht.symm.trans (hhead _)))).1⟩
  | cons n rest =>
    rw [firstPage, if_neg (by rw [hpages]; exact cons_ne_nil _ _)] at hu
    obtain rfl := Option.some.inj hu
    rw [roomyPage, hpages] at hv
    dsimp only at hv
    split_ifs at hv with hroom
    · obtain ⟨rfl, hfew⟩ := takePage_newPage hfree hv
      exact ⟨hfew, (Prod.mk.inj (Option.some.inj (ht.symm.trans (hhead _)))).1⟩
    · obtain rfl := Option.some.inj hv
      have hfit : findFitRegion (s.page n) (getMinAllocationSize size) = none := by
        rw [serving, hpages, head?_cons, filter_some, ite_eq_right_iff] at hserving
        by_contra hne
        cases hserving (decide_eq_true ⟨not_lt.mp hroom, isSome_iff_ne_none.mpr hne⟩)
      rw [allocateLoop_next (s :=
        { s with usedSize := addSize s.usedSize (getMinAllocationSize size) }) hpages hfit] at ht
      obtain ⟨w, hw, ht⟩ := bind_eq_some_iff.mp ht
      obtain ⟨rfl, hfew⟩ :=
        takePage_newPage
        (s := { s with usedSize := addSize s.usedSize (getMinAllocationSize size) }) hfree hw
      exact ⟨hfew, (Prod.mk.inj (Option.some.inj (ht.symm.trans (hhead _)))).1⟩

structure Tracked (s : OldSpace) : Prop where
  sound : AllSound s
  counted : Counted s
  nodup : (s.pages ++ s.freeList).Nodup
  used : ∀ n ∈ s.pages ++ s.freeList, n < s.nextPage
  few : s.allocatedPages < 2 ^ 31

lemma sum_update {pages : List ℕ} (hnodup : pages.Nodup) (hn : n ∈ pages) (page : ℕ → Page)
    (q : Page) :
    (pages.map fun m => liveBytes (update page n q m)).sum + liveBytes (page n)
      = (pages.map fun m => liveBytes (page m)).sum + liveBytes q := by
  have hother : (pages.erase n).map (fun m => liveBytes (update page n q m))
      = (pages.erase n).map fun m => liveBytes (page m) := by
    refine map_congr_left fun m hm => ?_
    rw [update_of_ne (hnodup.mem_erase_iff.mp hm).1]
  have hperm := perm_cons_erase hn
  rw [(hperm.map _).sum_eq, (hperm.map fun m => liveBytes (page m)).sum_eq, map_cons, map_cons,
    sum_cons, sum_cons, hother, update_self]
  omega

lemma Tracked.usedSize_le (h : Tracked s) : s.usedSize ≤ 2 ^ 31 * area := by
  have hle : ∀ m ∈ s.pages, liveBytes (s.page m) ≤ area := fun m hm => by
    have := h.counted.available m hm
    omega
  have hfew := h.few
  have hallocated := h.counted.allocated
  calc s.usedSize = (s.pages.map fun n => liveBytes (s.page n)).sum := h.counted.used
    _ ≤ (s.pages.map fun n => liveBytes (s.page n)).length * area := by
      refine sum_le_card_nsmul _ _ fun x hx => ?_
      obtain ⟨m, hm, rfl⟩ := List.mem_map.mp hx
      exact hle m hm
    _ ≤ 2 ^ 31 * area := by
      rw [length_map]
      exact Nat.mul_le_mul_right _ (by omega)

lemma pageAllocate_kept {p : Page} (h : Sound p) (hkept : Kept p request) {fit : ℕ}
    (hfit : findFitRegion p request = some fit) (hmod : request % 8 = 0) (hwide : 16 ≤ request)
    (hle : requested ≤ request) :
    ∃ q offset, pageAllocate p request requested = some (q, some offset) ∧ Sound q
      ∧ liveBytes q = request + liveBytes p ∧ q.available + request = p.available := by
  obtain ⟨-, c, next, hlist, -⟩ := findFitRegion_some hfit
  obtain ⟨q, hq, hsound, hlive, havailable⟩ := h.pageAllocate_some hfit hlist hmod hwide hle
  refine ⟨q, c.offset, hq, hsound, hlive, ?_⟩
  have hsize := hkept fit hfit c (by rw [hlist]; rfl)
  split_ifs at havailable <;> omega

lemma Tracked.setPage (h : Tracked s) {n used : ℕ} (hn : n ∈ s.pages) (hsound : Sound q)
    (hbytes : q.available + liveBytes q = area)
    (hused : used + liveBytes (s.page n) = s.usedSize + liveBytes q) :
    Tracked { s with page := update s.page n q, usedSize := used } where
  sound := h.sound.update hsound
  counted := by
    have hnodup := (nodup_append.mp h.nodup).1
    refine ⟨?_, fun m hm => ?_, fun m hm => ?_, h.counted.freed, h.counted.allocated⟩
    · have hsum := sum_update hnodup hn s.page q
      have := h.counted.used
      dsimp only
      omega
    · dsimp only
      by_cases hmn : m = n
      · subst hmn
        rwa [update_self]
      · rw [update_of_ne hmn]
        exact h.counted.available m hm
    · have hmn : m ≠ n := fun heq => (nodup_append.mp h.nodup).2.2 n hn m hm heq.symm
      dsimp only
      rw [update_of_ne hmn]
      exact h.counted.recycled m hm
  nodup := h.nodup
  used := h.used
  few := h.few

lemma Tracked.newPage (h : Tracked s) (hfree : s.freeList = [])
    (hfew : s.allocatedPages + 1 < 2 ^ 31) :
    Tracked (LangOldSpace.newPage s) := by
  have hnew : s.nextPage ∉ s.pages ++ s.freeList := fun hmem => lt_irrefl _ (h.used _ hmem)
  have hother : ∀ m ∈ s.pages, update s.page s.nextPage initial m = s.page m := fun m hm => by
    refine update_of_ne ?_ _ _
    rintro rfl
    exact hnew (mem_append_left _ hm)
  refine ⟨h.sound.update sound_initial, ⟨?_, ?_, ?_, h.counted.freed, ?_⟩,
    nodup_cons.mpr ⟨hnew, h.nodup⟩, ?_, hfew⟩
  · dsimp only [LangOldSpace.newPage]
    rw [map_cons, sum_cons, update_self, map_congr_left fun m hm => by rw [hother m hm],
      h.counted.used]
    exact (Nat.zero_add _).symm
  · rintro m (_ | ⟨_, hm⟩)
    · rw [newPage_page]
      rfl
    · dsimp only [LangOldSpace.newPage]
      rw [hother m hm]
      exact h.counted.available m hm
  · intro m hm
    dsimp only [LangOldSpace.newPage] at hm
    rw [hfree] at hm
    cases hm
  · have := h.counted.allocated
    dsimp only [LangOldSpace.newPage]
    rw [length_cons]
    omega
  · rintro m (_ | ⟨_, hm⟩)
    · exact Nat.lt_succ_self _
    · exact (h.used m hm).trans (Nat.lt_succ_self _)

lemma addSize_eq {a n : ℕ} (ha : a ≤ 2 ^ 31 * area) (hn : n ≤ area) : addSize a n = a + n := by
  have harea : area = 1032192 := rfl
  exact Nat.mod_eq_of_lt (by omega)

lemma subSize_eq {a n : ℕ} (ha : a ≤ 2 ^ 31 * area) (hn : n ≤ a) : subSize a n = a - n := by
  have harea : area = 1032192 := rfl
  rw [subSize]
  omega

lemma Tracked.allocate (h : Tracked s) {size : ℕ} {a : ℕ × ℕ} (hsize : size ≤ area)
    (hcareful : Careful s (.allocate size)) (ht : LangOldSpace.allocate s size = some (t, a)) :
    Tracked t := by
  obtain ⟨hmod, hwide, hle, hrequest⟩ := request_spec hsize
  have hadd := addSize_eq h.usedSize_le hrequest
  simp only [Careful] at hcareful
  cases hserving : serving s (getMinAllocationSize size) with
  | some n =>
    rw [hserving] at hcareful
    obtain ⟨⟨rest, hpages⟩, -, fit, hfit⟩ := serving_some hserving
    have hn : n ∈ s.pages := by rw [hpages]; exact mem_cons_self
    obtain ⟨q, offset, hq, hsound, hlive, havailable⟩ :=
      pageAllocate_kept (h.sound n) hcareful hfit hmod hwide hle
    rw [allocate_serving hserving hq] at ht
    obtain ⟨rfl, -⟩ := Prod.mk.inj (Option.some.inj ht)
    have := h.counted.available n hn
    exact h.setPage hn hsound (by omega) (by omega)
  | none =>
    rw [hserving] at hcareful
    obtain ⟨hfree, hkept⟩ := hcareful
    obtain ⟨q, offset, hq, hsound, hlive, havailable⟩ :=
      pageAllocate_kept sound_initial hkept (findFitRegion_initial hrequest) hmod hwide hle
    obtain ⟨hfew, rfl⟩ := allocate_newPage hserving hfree hrequest hq ht
    have hinitial : liveBytes initial = 0 := rfl
    have harea : initial.available = area := rfl
    refine (h.newPage hfree hfew).setPage (n := s.nextPage) mem_cons_self hsound (by omega) ?_
    rw [newPage_page]
    dsimp only [LangOldSpace.newPage]
    omega

lemma Tracked.free (h : Tracked s) {n stray : ℕ} {b : Block} (hn : n ∈ s.pages)
    (hb : b ∈ (s.page n).live) (hbounded : Bounded (s.page n) b.offset stray)
    (ht : LangOldSpace.free s n b.offset stray = some t) : Tracked t := by
  obtain ⟨q, hq, hsound, hlive, havailable⟩ := (h.sound n).free hb hbounded
  rw [LangOldSpace.free, (h.sound n).allocatedSize hb, bind_some, hq, map_some] at ht
  obtain rfl := Option.some.inj ht
  have hleft : b.size + liveBytes q = liveBytes (s.page n) := by
    rw [← liveBytes_erase hb, liveBytes, hlive]
  have hle : liveBytes (s.page n) ≤ s.usedSize := by
    rw [h.counted.used]
    exact single_le_sum (by simp) _ (List.mem_map_of_mem hn)
  have hsub := subSize_eq h.usedSize_le (show b.size ≤ s.usedSize by omega)
  have := h.counted.available n hn
  exact h.setPage hn hsound (by omega) (by omega)

lemma Tracked.freePage (h : Tracked s) (hn : n ∈ s.pages) (hempty : isEmpty (s.page n) = true)
    (hmax : (s.freedPages : ℤ) < s.maxFreedPages) : Tracked (LangOldSpace.freePage s n) := by
  rw [LangOldSpace.freePage, if_neg (not_le.mpr hmax), reinitialized_eq (h.sound n) hempty]
  have hnodup := (nodup_append.mp h.nodup).1
  have hperm : (s.pages.erase n ++ n :: s.freeList).Perm (s.pages ++ s.freeList) :=
    perm_middle.trans ((perm_cons_erase hn).symm.append_right s.freeList)
  have hother : ∀ m ∈ s.pages.erase n, update s.page n initial m = s.page m := fun m hm =>
    update_of_ne (hnodup.mem_erase_iff.mp hm).1 _ _
  have hlive : liveBytes (s.page n) = 0 := by
    rw [liveBytes, live_of_isEmpty (h.sound n) hempty]; rfl
  refine ⟨h.sound.update sound_initial, ⟨?_, fun m hm => ?_, ?_, ?_, ?_⟩,
    hperm.nodup_iff.mpr h.nodup, fun m hm => h.used m (hperm.subset hm), h.few⟩
  · dsimp only
    rw [map_congr_left fun m hm => by rw [hother m hm], h.counted.used,
      ((perm_cons_erase hn).map _).sum_eq, map_cons, sum_cons, hlive, Nat.zero_add]
  · dsimp only
    rw [hother m hm]
    exact h.counted.available m (mem_of_mem_erase hm)
  · rintro m (_ | ⟨_, hm⟩)
    · exact update_self ..
    · have hmn : m ≠ n := fun heq => (nodup_append.mp h.nodup).2.2 n hn m hm heq.symm
      dsimp only
      rw [update_of_ne hmn]
      exact h.counted.recycled m hm
  · dsimp only
    rw [length_cons, h.counted.freed]
  · have hlength := length_erase_of_mem hn
    have hpos := length_pos_of_mem hn
    have := h.counted.allocated
    dsimp only
    rw [length_cons]
    omega

lemma Tracked.foldl_purgePage (h : Tracked s) {ns : List ℕ} (hsub : ∀ n ∈ ns, n ∈ s.pages)
    (hnodup : ns.Nodup)
    (hmax : (s.freedPages + ns.countP (fun n => isEmpty (s.page n)) : ℤ) ≤ s.maxFreedPages) :
    Tracked (ns.foldl purgePage s) := by
  induction ns generalizing s with
  | nil => exact h
  | cons n ns ih =>
    obtain ⟨hnew, hnodup⟩ := nodup_cons.mp hnodup
    have hn := hsub n mem_cons_self
    rw [foldl_cons, purgePage]
    by_cases hempty : isEmpty (s.page n) = true
    · rw [countP_cons_of_pos (p := fun n => isEmpty (s.page n)) hempty] at hmax
      have hfreed : (s.freedPages : ℤ) < s.maxFreedPages := by push_cast at hmax; omega
      have hpages := (nodup_append.mp h.nodup).1
      have hcount : ns.countP (fun m => isEmpty (update s.page n (reinitialized (s.page n)) m))
          = ns.countP fun m => isEmpty (s.page m) := by
        refine countP_congr fun m hm => ?_
        rw [update_of_ne]
        rintro rfl
        exact hnew hm
      rw [if_pos hempty]
      refine ih (h.freePage hn hempty hfreed) (fun m hm => ?_) hnodup ?_
      · rw [LangOldSpace.freePage, if_neg (not_le.mpr hfreed)]
        refine hpages.mem_erase_iff.mpr ⟨?_, hsub m (mem_cons_of_mem _ hm)⟩
        rintro rfl
        exact hnew hm
      · rw [LangOldSpace.freePage, if_neg (not_le.mpr hfreed)]
        dsimp only
        rw [hcount]
        push_cast at hmax ⊢
        omega
    · rw [countP_cons_of_neg (p := fun n => isEmpty (s.page n)) hempty] at hmax
      rw [if_neg hempty]
      exact ih h (fun m hm => hsub m (mem_cons_of_mem _ hm)) hnodup hmax

lemma Tracked.step {op : Op} (h : Tracked s) (hcareful : Careful s op)
    (ht : LangOldSpace.step s op = some t) : Tracked t := by
  cases op with
  | allocate size =>
    simp only [LangOldSpace.step] at ht
    split_ifs at ht with hsize
    obtain ⟨⟨u, a⟩, hu, rfl⟩ := map_eq_some_iff.mp ht
    exact h.allocate hsize hcareful hu
  | free n offset stray =>
    simp only [LangOldSpace.step] at ht
    split_ifs at ht with hlive
    obtain ⟨hn, b, hb, rfl⟩ := hlive
    exact h.free hn hb hcareful ht
  | purgeIfNeeded =>
    obtain rfl := Option.some.inj ht
    exact h.foldl_purgePage (fun n hn => hn) (nodup_append.mp h.nodup).1 hcareful

lemma tracked_new (maxFreedPages : ℤ) : Tracked (new maxFreedPages) where
  sound _ := sound_initial
  counted := ⟨rfl, by simp [new], by simp [new], rfl, rfl⟩
  nodup := nodup_nil
  used := by simp [new]
  few := Nat.two_pow_pos 31

lemma not_accounted (s : OldSpace) : ¬ Accounted s := by
  rintro ⟨hcounted, hrss⟩
  rw [← hcounted.allocated, getRSS] at hrss
  generalize s.allocatedPages = n at hrss
  split_ifs at hrss with hlt
  have heq := Option.some.inj hrss
  have hpow : n < 2 ^ n := Nat.lt_two_pow_self
  by_cases hsmall : n < 44
  · have hbound : 2 ^ n ≤ 2 ^ 43 := Nat.pow_le_pow_right (by decide) (by omega)
    rw [Nat.mod_eq_of_lt (by unfold pageSize; omega)] at heq
    unfold pageSize at heq
    omega
  · have hzero : pageSize * 2 ^ n % 2 ^ 64 = 0 := by
      refine Nat.mod_eq_zero_of_dvd ?_
      rw [pageSize, ← pow_add]
      exact pow_dvd_pow 2 (by omega)
    rw [hzero] at heq
    unfold pageSize at heq
    omega

/-- The resident size is never that of the pages. The other counters are right in the runs in which
no bytes are lost, no page comes from the free list and the free list has room. -/
theorem resident_size_wrong (maxFreedPages : ℤ) (ops : List Op) :
    Always step (fun s => ¬ Accounted s) (new maxFreedPages) ops
    ∧ (EachStep step Careful (new maxFreedPages) ops →
      Always step Counted (new maxFreedPages) ops) := by
  refine ⟨fun _ t _ _ => not_accounted t, fun hcareful bs t hb ht => ?_⟩
  have htracked : Always step Tracked (new maxFreedPages) ops :=
    always_of_eachStep (fun _ _ _ hc h hstep => h.step hc hstep) (tracked_new maxFreedPages)
      hcareful
  exact (htracked bs t hb ht).counted

theorem resident_size_wrong_careful :
    EachStep step Careful (new 4) [.allocate 32, .allocate 16, .free 0 0 0, .free 0 32 0,
      .purgeIfNeeded]
    ∧ Always step Counted (new 4) [.allocate 32, .allocate 16, .free 0 0 0, .free 0 32 0,
      .purgeIfNeeded] := by
  have hcareful : EachStep step Careful (new 4) [.allocate 32, .allocate 16, .free 0 0 0,
      .free 0 32 0, .purgeIfNeeded] :=
    eachStep_of_checkEach (by decide +kernel)
  exact ⟨hcareful, (resident_size_wrong 4 _).2 hcareful⟩

/-- One page is counted twice. -/
theorem resident_size_doubled :
    (run step (new 4) [.allocate 32]).map (fun s => (s.pages.length, s.freeList.length, getRSS s))
      = some (1, 0, some (2 * pageSize))
    ∧ ¬ Always step Accounted (new 4) [.allocate 32] := by
  have hrun : (run step (new 4) [.allocate 32]).map
      (fun s => (s.pages.length, s.freeList.length, getRSS s))
      = some (1, 0, some (2 * pageSize)) := by decide +kernel
  refine ⟨hrun, fun h => ?_⟩
  obtain ⟨s, hs, hvalues⟩ := map_eq_some_iff.mp hrun
  simp only [Prod.mk.injEq] at hvalues
  obtain ⟨hpages, hfree, hrss⟩ := hvalues
  have haccounted := (h _ s prefix_rfl hs).2
  rw [hpages, hfree, hrss] at haccounted
  exact absurd haccounted (by decide)

end Serving

end Mai.LangOldSpaceCounters
