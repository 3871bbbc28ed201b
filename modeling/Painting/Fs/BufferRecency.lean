import Painting.Fs.BufferCacheInvariant

/-!
# Which buffer is recycled

`brelse` moves a buffer to the front of the list, and the scan of `bget` goes from the
front and keeps the first buffer without references.  The list is thus in order of
release, the latest first, and the buffer that is recycled is the one released last.

A history is the cache with the times of release and, for each block, the blocks that
were in use since it was last read.  Recycling the buffer released first would keep
every block in the cache until more than `NBUF` blocks were in use.
-/

namespace Painting.BufferCache

open Painting.Transition

/-- The cache in a run of `bread` and `brelse`.  The other fields exist for the statement
alone: the time of the last release of each buffer, zero before the first, and for each
block that was read the blocks in use since it was last read. -/
structure History where
  cache : Cache
  clock : ℕ
  released : ℕ → ℕ
  since : ℕ × ℕ → Option (Finset (ℕ × ℕ))

inductive Access
  | bread (pid : ℤ) (dev blockno : ℕ)
  | brelse (pid : ℤ) (i : ℕ)

/-- The blocks whose buffers are held. -/
def Cache.heldKeys (cache : Cache) : Finset (ℕ × ℕ) :=
  ((Finset.range nbuf).filter fun i => (cache.buf i).locked = true).image fun i =>
    (cache.buf i).key

/-- One call; `none` when it does not return. -/
def access (sector : ℕ × ℕ → ℕ) (history : History) : Access → Option History
  | .bread pid dev blockno =>
      (bread sector history.cache pid dev blockno).map fun (_, cache) =>
        { history with
          cache := cache
          since := fun key =>
            if key = (dev, blockno) then some cache.heldKeys
            else (history.since key).map (insert (dev, blockno)) }
  | .brelse pid i =>
      (brelse history.cache pid i).map fun cache =>
        { history with
          cache := cache
          clock := history.clock + 1
          released := Function.update history.released i (history.clock + 1) }

def AccessStep (sector : ℕ × ℕ → ℕ) (history : History) (a : Access) (after : History) : Prop :=
  access sector history a = some after

/-- After `binit`, before the first call. -/
def binitHistory (disk : ℕ → Block) : History := ⟨binit disk, 0, fun _ => 0, fun _ => none⟩

/-- If `bget` has to recycle a buffer for the block, no buffer without references was
released before it. -/
def LruVictim (history : History) (dev blockno : ℕ) : Prop :=
  ∀ i, bgetLoop history.cache.buf dev blockno history.cache.bcacheList none = .inr (some i) →
    ∀ j < nbuf, (history.cache.buf j).refcnt = 0 → history.released i ≤ history.released j

/-- A block that was read is read from the disk again only after more than `NBUF` blocks
were in use. -/
def ReadAgain (history : History) : Prop :=
  ∀ pid dev blockno i cache, bget history.cache pid dev blockno = some (i, cache) →
    (cache.buf i).valid = false →
      ∀ blocks, history.since (dev, blockno) = some blocks → nbuf < blocks.card

/-- The block is cached, or at most one buffer is without references, or none of these
was ever released. -/
def OneChoice (history : History) (dev blockno : ℕ) : Prop :=
  (∃ i < nbuf, (history.cache.buf i).key = (dev, blockno)) ∨
    (∀ i < nbuf, ∀ j < nbuf, (history.cache.buf i).refcnt = 0 →
      (history.cache.buf j).refcnt = 0 → i = j) ∨
    ∀ i < nbuf, (history.cache.buf i).refcnt = 0 → history.released i = 0

/-- The condition as a guard on the calls of a run. -/
def OneChoiceAt (history : History) : Access → Prop
  | .bread _ dev blockno => OneChoice history dev blockno
  | .brelse _ _ => True

/-! ## What the calls do -/

/-- The scan meets `i` first: with the block's key, or else without references. -/
def Met (cache : Cache) (dev blockno i : ℕ) : Prop :=
  cache.bcacheList.find? (fun j => (cache.buf j).key = (dev, blockno)) = some i ∨
    cache.bcacheList.find? (fun j => (cache.buf j).key = (dev, blockno)) = none ∧
      cache.bcacheList.find? (fun j => (cache.buf j).refcnt = 0) = some i

/-- `bget` recycles `i`: no buffer has the block, and `i` is the first without references. -/
theorem bgetLoop_eq_victim (cache : Cache) (dev blockno i : ℕ) :
    bgetLoop cache.buf dev blockno cache.bcacheList none = .inr (some i) ↔
      cache.bcacheList.find? (fun j => (cache.buf j).key = (dev, blockno)) = none ∧
        cache.bcacheList.find? (fun j => (cache.buf j).refcnt = 0) = some i := by
  rw [bgetLoop_eq]
  cases cache.bcacheList.find? fun j => (cache.buf j).key = (dev, blockno) <;> simp

theorem bget_cases {cache after : Cache} {pid : ℤ} {dev blockno i : ℕ}
    (hbget : bget cache pid dev blockno = some (i, after)) :
    Met cache dev blockno i ∧ (cache.buf i).locked = false ∧
      ∃ b, after = cache.setBuf i b ∧ b.key = (dev, blockno) ∧ b.locked = true ∧
        (b.valid = true ↔ (cache.buf i).valid = true ∧ (cache.buf i).key = (dev, blockno)) ∧
        ((cache.buf i).refcnt = 0 → b.refcnt = 1) := by
  rw [bget, bgetLoop_eq] at hbget
  cases hhit : cache.bcacheList.find? fun j => (cache.buf j).key = (dev, blockno) with
  | some j =>
      have hkey : (cache.buf j).key = (dev, blockno) := by simpa using List.find?_some hhit
      simp only [hhit, acquiresleeplock] at hbget
      split at hbget
      · cases hbget
      · rename_i hlocked
        simp only [Option.map_some, Option.some.injEq, Prod.mk.injEq] at hbget
        obtain ⟨rfl, rfl⟩ := hbget
        exact ⟨.inl hhit, by simpa using hlocked, _, rfl, hkey, rfl, by simp [hkey],
          fun h => by simp [h]⟩
  | none =>
      cases hfree : cache.bcacheList.find? fun j => (cache.buf j).refcnt = 0 with
      | none =>
          simp only [hhit, hfree, Option.none_or] at hbget
          cases hbget
      | some j =>
          have hmem := List.mem_of_find?_eq_some hfree
          have hmiss : (cache.buf j).key ≠ (dev, blockno) := by
            simpa using List.find?_eq_none.mp hhit j hmem
          simp only [hhit, hfree, Option.none_or, acquiresleeplock] at hbget
          split at hbget
          · cases hbget
          · rename_i hlocked
            simp only [Option.map_some, Option.some.injEq, Prod.mk.injEq] at hbget
            obtain ⟨rfl, rfl⟩ := hbget
            exact ⟨.inr ⟨hhit, hfree⟩, by simpa using hlocked, _, rfl, rfl, rfl,
              by simp [hmiss], fun _ => rfl⟩

/-- `bread` holds the buffer it meets, with the block in it. -/
theorem bread_cases {sector : ℕ × ℕ → ℕ} {cache after : Cache} {pid : ℤ} {dev blockno i : ℕ}
    (hbread : bread sector cache pid dev blockno = some (i, after)) :
    Met cache dev blockno i ∧ (cache.buf i).locked = false ∧
      ∃ b, after = cache.setBuf i b ∧ b.key = (dev, blockno) ∧ b.locked = true ∧
        b.valid = true ∧ ((cache.buf i).refcnt = 0 → b.refcnt = 1) := by
  rw [bread, Option.map_eq_some_iff] at hbread
  obtain ⟨⟨j, got⟩, hbget, hread⟩ := hbread
  obtain ⟨hmet, hunlocked, b, hgot, hkey, hlocked, -, hrefcnt⟩ := bget_cases hbget
  subst hgot
  simp only [setBuf_buf, Function.update_self] at hread
  split at hread
  · rename_i hvalid
    obtain ⟨rfl, rfl⟩ := Prod.mk.injEq .. ▸ hread
    exact ⟨hmet, hunlocked, b, rfl, hkey, hlocked, hvalid, hrefcnt⟩
  · obtain ⟨rfl, rfl⟩ := Prod.mk.injEq .. ▸ hread
    rw [setBuf_setBuf]
    exact ⟨hmet, hunlocked, _, rfl, hkey, hlocked, rfl, hrefcnt⟩

/-- `brelse` of a buffer with one reference moves it to the front. -/
theorem brelse_cases {cache after : Cache} {pid : ℤ} {i : ℕ}
    (hbrelse : brelse cache pid i = some after) (hrefcnt : (cache.buf i).locked = true →
      (cache.buf i).refcnt = 1) :
    (cache.buf i).locked = true ∧ after =
      { cache.setBuf i { cache.buf i with locked := false, pid := -1, refcnt := 0 } with
        bcacheList := i :: cache.bcacheList.erase i } := by
  rw [brelse] at hbrelse
  split at hbrelse
  · rename_i hholding
    have hone := hrefcnt hholding.1
    simp only [hone, Nat.reducePow, Nat.reduceAdd, Nat.reduceSub, Nat.mod_self, if_true,
      Option.some.injEq] at hbrelse
    exact ⟨hholding.1, hbrelse.symm⟩
  · cases hbrelse

/-! ## The invariant -/

/-- The list is in order of release, the buffers that were ever used before the others,
and the blocks in use since a block was last read include the blocks that are held and
those whose buffers were released after its own. -/
structure Recent (history : History) : Prop where
  perm : history.cache.bcacheList.Perm (List.range nbuf)
  order : history.cache.bcacheList.Pairwise fun i j => history.released j ≤ history.released i
  front : history.cache.bcacheList.Pairwise fun i j =>
    (history.cache.buf j).valid = true → (history.cache.buf i).valid = true
  apart : ∀ i j, history.released i = history.released j → history.released i ≠ 0 → i = j
  clock : ∀ i, history.released i ≤ history.clock
  refcnt : ∀ i, (history.cache.buf i).refcnt = if (history.cache.buf i).locked then 1 else 0
  inside : ∀ i, (history.cache.buf i).valid = true → i < nbuf
  fresh : ∀ i, (history.cache.buf i).valid = false →
    Unused (history.cache.buf i) ∧ history.released i = 0
  distinct : ∀ i j, (history.cache.buf i).valid = true → (history.cache.buf j).valid = true →
    (history.cache.buf i).key = (history.cache.buf j).key → i = j
  freed : ∀ i, (history.cache.buf i).valid = true → (history.cache.buf i).locked = false →
    history.released i ≠ 0
  held : ∀ key blocks, history.since key = some blocks →
    ∀ i, (history.cache.buf i).locked = true → (history.cache.buf i).key ∈ blocks
  own : ∀ key blocks, history.since key = some blocks → key ∈ blocks
  later : ∀ i j, (history.cache.buf i).valid = true → (history.cache.buf i).locked = false →
    history.released i < history.released j →
      ∀ blocks, history.since (history.cache.buf i).key = some blocks →
        (history.cache.buf j).key ∈ blocks

/-- A block that was read is cached, or more than `NBUF` blocks were in use since. -/
def Kept (history : History) : Prop :=
  ∀ key blocks, history.since key = some blocks →
    (∃ i, (history.cache.buf i).valid = true ∧ (history.cache.buf i).key = key) ∨
      nbuf < blocks.card

theorem binitHistory_recent (disk : ℕ → Block) : Recent (binitHistory disk) := by
  constructor
  case perm => exact List.Perm.refl _
  case order => exact List.pairwise_of_forall fun _ _ => le_rfl
  case front => exact List.pairwise_of_forall fun _ _ h => h
  case fresh => exact fun _ _ => ⟨⟨rfl, rfl, rfl, rfl⟩, rfl⟩
  all_goals simp [binitHistory, binit]

theorem binitHistory_kept (disk : ℕ → Block) : Kept (binitHistory disk) := by
  simp [Kept, binitHistory]

namespace Recent

variable {history : History} {dev blockno i : ℕ}

theorem mem_list (hrecent : Recent history) :
    i ∈ history.cache.bcacheList ↔ i < nbuf := by
  rw [hrecent.perm.mem_iff, List.mem_range]

theorem valid_of_locked (hrecent : Recent history)
    (hlocked : (history.cache.buf i).locked = true) : (history.cache.buf i).valid = true := by
  by_contra hvalid
  rw [(hrecent.fresh i (by simpa using hvalid)).1.locked] at hlocked
  cases hlocked

theorem locked_of_refcnt (hrecent : Recent history) (hrefcnt : (history.cache.buf i).refcnt ≠ 0) :
    (history.cache.buf i).locked = true := by
  by_contra hlocked
  rw [hrecent.refcnt i, if_neg hlocked] at hrefcnt
  exact hrefcnt rfl

theorem refcnt_eq_zero (hrecent : Recent history)
    (hunlocked : (history.cache.buf i).locked = false) : (history.cache.buf i).refcnt = 0 := by
  rw [hrecent.refcnt i, hunlocked]
  rfl

/-- What the scan of `bget` passes before it meets a buffer was used: unused buffers are
without references and all carry the same key. -/
theorem used_before (hrecent : Recent history) (hmet : Met history.cache dev blockno i) :
    ∃ before behind, history.cache.bcacheList = before ++ i :: behind ∧
      ∀ j ∈ before, (history.cache.buf j).valid = true := by
  obtain hhit | ⟨-, hfree⟩ := hmet
  · obtain ⟨hkey, before, behind, hlist, hpassed⟩ := List.find?_eq_some_iff_append.mp hhit
    refine ⟨before, behind, hlist, fun j hj => ?_⟩
    by_contra hvalid
    have hunused := hrecent.fresh j (by simpa using hvalid)
    by_cases hself : (history.cache.buf i).valid = true
    · have hfront := hrecent.front
      rw [hlist, List.pairwise_append] at hfront
      exact hvalid (hfront.2.2 j hj i (by simp) hself)
    · have hunused' := hrecent.fresh i (by simpa using hself)
      have hmiss := hpassed j hj
      rw [hunused.1.key, ← hunused'.1.key] at hmiss
      simp only [decide_eq_true_eq] at hkey
      simp [hkey] at hmiss
  · obtain ⟨-, before, behind, hlist, hpassed⟩ := List.find?_eq_some_iff_append.mp hfree
    refine ⟨before, behind, hlist, fun j hj => ?_⟩
    exact hrecent.valid_of_locked (hrecent.locked_of_refcnt (by simpa using hpassed j hj))

/-- A valid buffer with the block is the one the scan meets. -/
theorem met_of_valid (hrecent : Recent history) (hmet : Met history.cache dev blockno i) {j : ℕ}
    (hvalid : (history.cache.buf j).valid = true)
    (hkey : (history.cache.buf j).key = (dev, blockno)) : j = i := by
  obtain hhit | ⟨hnone, -⟩ := hmet
  · obtain ⟨hkey', before, behind, hlist, hpassed⟩ := List.find?_eq_some_iff_append.mp hhit
    have hmem : j ∈ before ++ i :: behind :=
      hlist ▸ hrecent.mem_list.mpr (hrecent.inside j hvalid)
    obtain hbefore | hrest := List.mem_append.mp hmem
    · simpa [hkey] using hpassed j hbefore
    · obtain heq | hbehind := List.mem_cons.mp hrest
      · exact heq
      · have hfront := hrecent.front
        rw [hlist, List.pairwise_append, List.pairwise_cons] at hfront
        simp only [decide_eq_true_eq] at hkey'
        exact hrecent.distinct j i hvalid (hfront.2.1.1 j hbehind hvalid)
          (hkey.trans hkey'.symm)
  · exact absurd hkey (by
      simpa using List.find?_eq_none.mp hnone j (hrecent.mem_list.mpr (hrecent.inside j hvalid)))

/-- The history after `bread` has put `b` into buffer `i`. -/
def afterBread (history : History) (dev blockno i : ℕ) (b : Buf) : History :=
  { history with
    cache := history.cache.setBuf i b
    since := fun key =>
      if key = (dev, blockno) then some (history.cache.setBuf i b).heldKeys
      else (history.since key).map (insert (dev, blockno)) }

theorem mem_heldKeys {cache : Cache} (hinside : (cache.buf i).locked = true → i < nbuf)
    (hlocked : (cache.buf i).locked = true) : (cache.buf i).key ∈ cache.heldKeys := by
  rw [Cache.heldKeys, Finset.mem_image]
  exact ⟨i, by simpa [hlocked] using hinside hlocked, rfl⟩

theorem bread (hrecent : Recent history) (hmet : Met history.cache dev blockno i) {b : Buf}
    (hkey : b.key = (dev, blockno)) (hlocked : b.locked = true) (hvalid : b.valid = true)
    (hrefcnt : b.refcnt = 1) : Recent (afterBread history dev blockno i b) := by
  have hi : i < nbuf := by
    obtain hhit | ⟨-, hfree⟩ := hmet
    · exact hrecent.mem_list.mp (List.mem_of_find?_eq_some hhit)
    · exact hrecent.mem_list.mp (List.mem_of_find?_eq_some hfree)
  have hself : Function.update history.cache.buf i b i = b := Function.update_self _ _ _
  have hother : ∀ j, j ≠ i →
      Function.update history.cache.buf i b j = history.cache.buf j :=
    fun j hne => Function.update_of_ne hne _ _
  have hinside : ∀ j, (Function.update history.cache.buf i b j).valid = true → j < nbuf := by
    intro j hj
    by_cases hne : j = i
    · rwa [hne]
    · rw [hother j hne] at hj
      exact hrecent.inside j hj
  have hvalidOf : ∀ j, (Function.update history.cache.buf i b j).locked = true →
      (Function.update history.cache.buf i b j).valid = true := by
    intro j hj
    by_cases hne : j = i
    · rwa [hne, hself]
    · rw [hother j hne] at hj ⊢
      exact hrecent.valid_of_locked hj
  have hunmet : ∀ j, j ≠ i → (history.cache.buf j).valid = true →
      (history.cache.buf j).key ≠ (dev, blockno) :=
    fun j hne hj heq => hne (hrecent.met_of_valid hmet hj heq)
  constructor
  case perm => exact hrecent.perm
  case order => exact hrecent.order
  case apart => exact hrecent.apart
  case clock => exact hrecent.clock
  case inside => exact hinside
  case front =>
    obtain ⟨before, behind, hlist, hbefore⟩ := hrecent.used_before hmet
    have hfront := hrecent.front
    have hused : ∀ j, j = i ∨ (history.cache.buf j).valid = true →
        (Function.update history.cache.buf i b j).valid = true := by
      intro j hj
      by_cases hne : j = i
      · rwa [hne, hself]
      · rw [hother j hne]
        exact hj.resolve_left hne
    simp only [afterBread, setBuf_list, setBuf_buf]
    rw [hlist, List.pairwise_append, List.pairwise_cons] at hfront ⊢
    refine ⟨List.Pairwise.imp_of_mem ?_ hfront.1, ⟨fun _ _ _ => hused i (.inl rfl),
      List.Pairwise.imp_of_mem ?_ hfront.2.1.2⟩, fun j hj _ _ _ => hused j (.inr (hbefore j hj))⟩
    · exact fun hj _ _ _ => hused _ (.inr (hbefore _ hj))
    · intro j k _ hbehind himp hk
      have hnodup : (before ++ i :: behind).Nodup :=
        hlist ▸ hrecent.perm.nodup_iff.mpr List.nodup_range
      have hne : k ≠ i := by
        rintro rfl
        exact (List.nodup_cons.mp (List.nodup_append.mp hnodup).2.1).1 hbehind
      rw [hother k hne] at hk
      exact hused j (.inr (himp hk))
  case refcnt =>
    intro j
    by_cases hne : j = i
    · simp [afterBread, hne, hlocked, hrefcnt]
    · simpa [afterBread, hother j hne] using hrecent.refcnt j
  case fresh =>
    intro j hj
    by_cases hne : j = i
    · simp [afterBread, hne, hvalid] at hj
    · simp only [afterBread, setBuf_buf, hother j hne] at hj ⊢
      exact hrecent.fresh j hj
  case distinct =>
    intro j k hj hk heq
    simp only [afterBread, setBuf_buf] at hj hk heq
    by_cases hj' : j = i
    · by_cases hk' : k = i
      · exact hj'.trans hk'.symm
      · rw [hother k hk'] at hk heq
        rw [hj', hself, hkey] at heq
        exact absurd heq.symm (hunmet k hk' hk)
    · rw [hother j hj'] at hj heq
      by_cases hk' : k = i
      · rw [hk', hself, hkey] at heq
        exact absurd heq (hunmet j hj' hj)
      · rw [hother k hk'] at hk heq
        exact hrecent.distinct j k hj hk heq
  case freed =>
    intro j hj hunlocked
    by_cases hne : j = i
    · simp [afterBread, hne, hlocked] at hunlocked
    · simp only [afterBread, setBuf_buf, hother j hne] at hj hunlocked
      exact hrecent.freed j hj hunlocked
  case held =>
    intro key blocks hsince j hj
    simp only [afterBread] at hsince hj ⊢
    split at hsince
    · obtain rfl := Option.some.inj hsince
      exact mem_heldKeys (fun h => hinside j (hvalidOf j h)) hj
    · obtain ⟨old, hold, rfl⟩ := Option.map_eq_some_iff.mp hsince
      by_cases hne : j = i
      · simp [hne, hkey]
      · simp only [setBuf_buf, hother j hne] at hj ⊢
        exact Finset.mem_insert_of_mem (hrecent.held key old hold j hj)
  case own =>
    intro key blocks hsince
    simp only [afterBread] at hsince
    split at hsince
    · rename_i heq
      obtain rfl := Option.some.inj hsince
      have hmem := @mem_heldKeys i (history.cache.setBuf i b) (fun _ => hi) (by simpa using hlocked)
      simpa [heq, hkey] using hmem
    · obtain ⟨old, hold, rfl⟩ := Option.map_eq_some_iff.mp hsince
      exact Finset.mem_insert_of_mem (hrecent.own key old hold)
  case later =>
    intro j k hj hunlocked hlt blocks hsince
    have hne : j ≠ i := by
      rintro rfl
      simp [afterBread, hlocked] at hunlocked
    simp only [afterBread, setBuf_buf, hother j hne] at hj hunlocked hlt hsince ⊢
    rw [if_neg (hunmet j hne hj)] at hsince
    obtain ⟨old, hold, rfl⟩ := Option.map_eq_some_iff.mp hsince
    by_cases hk : k = i
    · simp [hk, hkey]
    · rw [hother k hk]
      exact Finset.mem_insert_of_mem (hrecent.later j k hj hunlocked hlt old hold)

theorem brelse (hrecent : Recent history) (hlocked : (history.cache.buf i).locked = true) :
    Recent
      { history with
        cache :=
          { history.cache.setBuf i
              { history.cache.buf i with locked := false, pid := -1, refcnt := 0 } with
            bcacheList := i :: history.cache.bcacheList.erase i }
        clock := history.clock + 1
        released := Function.update history.released i (history.clock + 1) } := by
  have hvalid := hrecent.valid_of_locked hlocked
  have hsame := @sameKeys_update i history.cache.buf
    { history.cache.buf i with locked := false, pid := -1, refcnt := 0 } rfl rfl
  have hmem : i ∈ history.cache.bcacheList := hrecent.mem_list.mpr (hrecent.inside i hvalid)
  have hnodup : history.cache.bcacheList.Nodup := hrecent.perm.nodup_iff.mpr List.nodup_range
  have hapart : ∀ j ∈ history.cache.bcacheList.erase i, j ≠ i := by
    rintro j hj rfl
    exact hnodup.not_mem_erase hj
  have hsub := @List.erase_sublist _ _ i history.cache.bcacheList
  constructor
  case perm => exact (List.perm_cons_erase hmem).symm.trans hrecent.perm
  case order =>
    refine List.pairwise_cons.mpr ⟨fun j hj => ?_, ?_⟩
    · simpa [Function.update_of_ne (hapart j hj)] using (hrecent.clock j).trans (Nat.le_succ _)
    · refine List.Pairwise.imp_of_mem ?_ (hrecent.order.sublist hsub)
      intro j k hj hk hle
      simpa only [Function.update_of_ne (hapart j hj), Function.update_of_ne (hapart k hk)] using hle
  case front =>
    refine List.pairwise_cons.mpr ⟨fun j _ _ => (hsame.valid i).trans hvalid, ?_⟩
    refine (hrecent.front.sublist hsub).imp ?_
    intro j k himp hk
    exact (hsame.valid j).trans (himp ((hsame.valid k).symm.trans hk))
  case apart =>
    intro j k heq hne
    change Function.update history.released i (history.clock + 1) j =
      Function.update history.released i (history.clock + 1) k at heq
    change Function.update history.released i (history.clock + 1) j ≠ 0 at hne
    rw [Function.update_apply, Function.update_apply] at heq
    rw [Function.update_apply] at hne
    have hj := hrecent.clock j
    have hk := hrecent.clock k
    split at heq
    · split at heq
      · rename_i hj' hk'
        exact hj'.trans hk'.symm
      · omega
    · rename_i hj'
      rw [if_neg hj'] at hne
      split at heq
      · omega
      · exact hrecent.apart j k heq hne
  case clock =>
    intro j
    change Function.update history.released i (history.clock + 1) j ≤ history.clock + 1
    rw [Function.update_apply]
    split
    · exact le_rfl
    · exact (hrecent.clock j).trans (Nat.le_succ _)
  case refcnt =>
    intro j
    by_cases hne : j = i
    · simp [hne]
    · simpa [Function.update_of_ne hne] using hrecent.refcnt j
  case inside => exact fun j hj => hrecent.inside j ((hsame.valid j).symm.trans hj)
  case fresh =>
    intro j hj
    have hinvalid := (hsame.valid j).symm.trans hj
    have hne : j ≠ i := by
      rintro rfl
      rw [hvalid] at hinvalid
      cases hinvalid
    simpa [Function.update_of_ne hne] using hrecent.fresh j hinvalid
  case distinct =>
    intro j k hj hk heq
    exact hrecent.distinct j k ((hsame.valid j).symm.trans hj) ((hsame.valid k).symm.trans hk)
      ((hsame.key j).symm.trans (heq.trans (hsame.key k)))
  case freed =>
    intro j hj hunlocked
    by_cases hne : j = i
    · simp [hne]
    · simp only [setBuf_buf, Function.update_of_ne hne] at hj hunlocked ⊢
      exact hrecent.freed j hj hunlocked
  case held =>
    intro key blocks hsince j hj
    have hne : j ≠ i := by
      rintro rfl
      simp at hj
    simp only [setBuf_buf, Function.update_of_ne hne] at hj ⊢
    exact hrecent.held key blocks hsince j hj
  case own => exact hrecent.own
  case later =>
    intro j k hj hunlocked hlt blocks hsince
    have hsince' : history.since (history.cache.buf j).key = some blocks := by
      rw [← hsince]
      exact congrArg history.since (hsame.key j).symm
    refine Eq.mpr (congrArg (· ∈ blocks) (hsame.key k)) ?_
    change Function.update history.released i (history.clock + 1) j <
      Function.update history.released i (history.clock + 1) k at hlt
    have hbound := hrecent.clock k
    have hbound' := hrecent.clock j
    by_cases hk : k = i
    · rw [hk]
      exact hrecent.held _ blocks hsince' i hlocked
    · have hne : j ≠ i := by
        rintro rfl
        rw [Function.update_self, Function.update_of_ne hk] at hlt
        omega
      rw [Function.update_of_ne hk, Function.update_of_ne hne] at hlt
      simp only [setBuf_buf, Function.update_of_ne hne] at hj hunlocked
      exact hrecent.later j k hj hunlocked hlt blocks hsince'

/-- If the buffer that `bread` recycles was released before the others, more than `NBUF`
blocks were in use since its own block was read: the blocks of all buffers and the new
one. -/
theorem card_of_victim (hrecent : Recent history) (hvictim : LruVictim history dev blockno)
    (hmet : Met history.cache dev blockno i) (hvalid : (history.cache.buf i).valid = true)
    (hunlocked : (history.cache.buf i).locked = false)
    (hne : (history.cache.buf i).key ≠ (dev, blockno)) {blocks : Finset (ℕ × ℕ)}
    (hsince : history.since (history.cache.buf i).key = some blocks) :
    nbuf < (insert (dev, blockno) blocks).card := by
  obtain hhit | ⟨hnone, hfree⟩ := hmet
  · exact absurd (by simpa using List.find?_some hhit) hne
  have hscan : bgetLoop history.cache.buf dev blockno history.cache.bcacheList none =
      .inr (some i) :=
    (bgetLoop_eq_victim _ _ _ _).mpr ⟨hnone, hfree⟩
  have hall : ∀ j < nbuf, (history.cache.buf j).valid = true ∧
      (history.cache.buf j).key ∈ blocks := by
    intro j hj
    by_cases heq : j = i
    · exact heq ▸ ⟨hvalid, hrecent.own _ blocks hsince⟩
    by_cases hlocked : (history.cache.buf j).locked = true
    · exact ⟨hrecent.valid_of_locked hlocked, hrecent.held _ blocks hsince j hlocked⟩
    have hle := hvictim i hscan j hj (hrecent.refcnt_eq_zero (by simpa using hlocked))
    have hreleased := hrecent.freed i hvalid hunlocked
    have hlt : history.released i < history.released j :=
      lt_of_le_of_ne hle fun h => heq (hrecent.apart i j h hreleased).symm
    refine ⟨?_, hrecent.later i j hvalid hunlocked hlt blocks hsince⟩
    by_contra hinvalid
    rw [(hrecent.fresh j (by simpa using hinvalid)).2] at hlt
    exact absurd hlt (Nat.not_lt_zero _)
  have hinj : Set.InjOn (fun j => (history.cache.buf j).key) (Finset.range nbuf) := by
    intro j hj k hk heq
    simp only [Finset.coe_range, Set.mem_Iio] at hj hk
    exact hrecent.distinct j k (hall j hj).1 (hall k hk).1 heq
  have hnew : (dev, blockno) ∉
      (Finset.range nbuf).image fun j => (history.cache.buf j).key := by
    rw [Finset.mem_image]
    rintro ⟨j, hj, hkey⟩
    have hmem := hrecent.mem_list.mpr (Finset.mem_range.mp hj)
    exact absurd hkey (by simpa using List.find?_eq_none.mp hnone j hmem)
  calc nbuf < ((Finset.range nbuf).image fun j => (history.cache.buf j).key).card + 1 := by
        rw [Finset.card_image_of_injOn hinj, Finset.card_range]
        exact Nat.lt_succ_self _
    _ = (insert (dev, blockno)
          ((Finset.range nbuf).image fun j => (history.cache.buf j).key)).card :=
        (Finset.card_insert_of_notMem hnew).symm
    _ ≤ (insert (dev, blockno) blocks).card := by
        refine Finset.card_le_card (Finset.insert_subset_insert _ ?_)
        rw [Finset.image_subset_iff]
        exact fun j hj => (hall j (Finset.mem_range.mp hj)).2

theorem kept_bread (hrecent : Recent history) (hkept : Kept history)
    (hvictim : LruVictim history dev blockno) (hmet : Met history.cache dev blockno i)
    (hunlocked : (history.cache.buf i).locked = false) {b : Buf}
    (hkey : b.key = (dev, blockno)) (hvalid : b.valid = true) :
    Kept (afterBread history dev blockno i b) := by
  intro key blocks hsince
  simp only [afterBread, setBuf_buf] at hsince ⊢
  split at hsince
  · rename_i heq
    exact .inl ⟨i, by simpa using hvalid, by simpa [heq] using hkey⟩
  · rename_i hne
    obtain ⟨old, hold, rfl⟩ := Option.map_eq_some_iff.mp hsince
    obtain ⟨j, hj, hj'⟩ | hmany := hkept key old hold
    · by_cases hself : j = i
      · subst hself
        refine .inr (hrecent.card_of_victim hvictim hmet hj hunlocked ?_ (hj' ▸ hold))
        exact hj' ▸ hne
      · exact .inl ⟨j, by simpa [Function.update_of_ne hself] using hj,
          by simpa [Function.update_of_ne hself] using hj'⟩
    · exact .inr (hmany.trans_le (Finset.card_le_card (Finset.subset_insert _ _)))

/-- A block of the history that is read from the disk again was not cached. -/
theorem readAgain (hrecent : Recent history) (hkept : Kept history) : ReadAgain history := by
  intro pid dev blockno i cache hbget hinvalid blocks hsince
  obtain ⟨hmet, -, b, rfl, hkey, -, hvalid, -⟩ := bget_cases hbget
  refine (hkept _ blocks hsince).resolve_left ?_
  rintro ⟨j, hj, hj'⟩
  obtain rfl := hrecent.met_of_valid hmet hj hj'
  rw [setBuf_buf, Function.update_self, hvalid.mpr ⟨hj, hj'⟩] at hinvalid
  cases hinvalid

/-- The list is in order of release, the latest first, so the buffer that is recycled is
the one released last. -/
theorem released_le_victim (hrecent : Recent history)
    (hfree : history.cache.bcacheList.find? (fun j => (history.cache.buf j).refcnt = 0) = some i)
    {j : ℕ} (hj : j < nbuf) (hrefcnt : (history.cache.buf j).refcnt = 0) :
    history.released j ≤ history.released i := by
  obtain ⟨-, before, behind, hlist, hpassed⟩ := List.find?_eq_some_iff_append.mp hfree
  have hmem : j ∈ before ++ i :: behind := hlist ▸ hrecent.mem_list.mpr hj
  have horder := hrecent.order
  rw [hlist, List.pairwise_append, List.pairwise_cons] at horder
  obtain hbefore | hrest := List.mem_append.mp hmem
  · exact absurd hrefcnt (by simpa using hpassed j hbefore)
  · obtain rfl | hbehind := List.mem_cons.mp hrest
    · exact le_rfl
    · exact horder.2.1.1 j hbehind

theorem lruVictim_iff (hrecent : Recent history) :
    LruVictim history dev blockno ↔ OneChoice history dev blockno := by
  constructor
  · intro hvictim
    by_contra hmany
    simp only [OneChoice, not_or, not_exists, not_and] at hmany
    push Not at hmany
    obtain ⟨huncached, ⟨j, hj, k, hk, hjfree, hkfree, hne⟩, l, hl, hlfree, hreleased⟩ := hmany
    have hnone : history.cache.bcacheList.find?
        (fun j => (history.cache.buf j).key = (dev, blockno)) = none := by
      rw [List.find?_eq_none]
      intro m hm
      simpa using huncached m (hrecent.mem_list.mp hm)
    obtain ⟨i, hfree⟩ : ∃ i, history.cache.bcacheList.find?
        (fun j => (history.cache.buf j).refcnt = 0) = some i := by
      rw [← Option.isSome_iff_exists, List.find?_isSome]
      exact ⟨j, hrecent.mem_list.mpr hj, by simpa using hjfree⟩
    have hscan : bgetLoop history.cache.buf dev blockno history.cache.bcacheList none =
        .inr (some i) :=
      (bgetLoop_eq_victim _ _ _ _).mpr ⟨hnone, hfree⟩
    have hsame : ∀ m < nbuf, (history.cache.buf m).refcnt = 0 → i = m := by
      intro m hm hmfree
      have hle := hvictim i hscan m hm hmfree
      have hge := hrecent.released_le_victim hfree hm hmfree
      have hpositive := hvictim i hscan l hl hlfree
      have hlast := hrecent.released_le_victim hfree hl hlfree
      exact hrecent.apart i m (le_antisymm hle hge) (by omega)
    exact hne ((hsame j hj hjfree).symm.trans (hsame k hk hkfree))
  · intro hchoice i hscan j hj hjfree
    obtain ⟨hnone, hfree⟩ := (bgetLoop_eq_victim _ _ _ _).mp hscan
    have hi := hrecent.mem_list.mp (List.mem_of_find?_eq_some hfree)
    have hifree : (history.cache.buf i).refcnt = 0 := by simpa using List.find?_some hfree
    obtain ⟨m, hm, hkey⟩ | honly | hnever := hchoice
    · have hmiss := List.find?_eq_none.mp hnone m (hrecent.mem_list.mpr hm)
      exact absurd hkey (by simpa using hmiss)
    · rw [honly i hi j hj hifree hjfree]
    · rw [hnever i hi hifree]
      exact Nat.zero_le _

end Recent

/-! ## Runs -/

variable {sector : ℕ × ℕ → ℕ}

/-- A call keeps the order; and it keeps every block that was read, if the buffer it
recycles was released before the others. -/
theorem access_recent {history after : History} {a : Access} (hrecent : Recent history)
    (hstep : AccessStep sector history a after) :
    Recent after ∧ (Kept history → OneChoiceAt history a → Kept after) := by
  cases a with
  | bread pid dev blockno =>
      rw [AccessStep, access, Option.map_eq_some_iff] at hstep
      obtain ⟨⟨i, cache⟩, hbread, rfl⟩ := hstep
      obtain ⟨hmet, hunlocked, b, rfl, hkey, hlocked, hvalid, hrefcnt⟩ := bread_cases hbread
      have hone := hrefcnt (hrecent.refcnt_eq_zero hunlocked)
      refine ⟨hrecent.bread hmet hkey hlocked hvalid hone, fun hkept hchoice => ?_⟩
      exact hrecent.kept_bread hkept (hrecent.lruVictim_iff.mpr hchoice) hmet hunlocked hkey hvalid
  | brelse pid i =>
      rw [AccessStep, access, Option.map_eq_some_iff] at hstep
      obtain ⟨cache, hbrelse, rfl⟩ := hstep
      obtain ⟨hlocked, rfl⟩ := brelse_cases hbrelse fun h => by rw [hrecent.refcnt i, if_pos h]
      refine ⟨hrecent.brelse hlocked, fun hkept _ key blocks hsince => ?_⟩
      have hsame := @sameKeys_update i history.cache.buf
        { history.cache.buf i with locked := false, pid := -1, refcnt := 0 } rfl rfl
      obtain ⟨j, hj, hj'⟩ | hmany := hkept key blocks hsince
      · exact .inl ⟨j, (hsame.valid j).trans hj, (hsame.key j).trans hj'⟩
      · exact .inr hmany

/-- In every run, the buffer that `bget` would recycle for a block was released before
the others exactly when it has no other choice that matters; in every run whose reads
find no other choice, a block is read again only after more than `NBUF` others. -/
theorem lruVictim_iff_oneChoice (sector : ℕ × ℕ → ℕ) (disk : ℕ → Block) :
    (∀ history, Reach (AccessStep sector) Unguarded (binitHistory disk) history →
      ∀ dev blockno, LruVictim history dev blockno ↔ OneChoice history dev blockno) ∧
    ∀ history, Reach (AccessStep sector) OneChoiceAt (binitHistory disk) history →
      ReadAgain history := by
  constructor
  · intro history hreach dev blockno
    have hrecent : Recent history := hreach.invariant (binitHistory_recent disk)
      fun _ _ _ hrecent _ hstep => (access_recent hrecent hstep).1
    exact hrecent.lruVictim_iff
  · intro history hreach
    have hboth : Recent history ∧ Kept history := by
      apply hreach.invariant ⟨binitHistory_recent disk, binitHistory_kept disk⟩
      intro before a after hbefore hchoice hstep
      obtain ⟨hrecent, hkept⟩ := access_recent hbefore.1 hstep
      exact ⟨hrecent, hkept hbefore.2 hchoice⟩
    exact hboth.1.readAgain hboth.2

/-- Process 1 has read block 1 and released it. -/
def oneReleased : History :=
  (follow (access driverSector) [.bread 1 0 1, .brelse 1 0]
    (binitHistory fun _ _ => 0)).get (by decide +kernel)

/-- It has then read block 2. -/
def oneRecycled : History :=
  (access driverSector oneReleased (.bread 1 0 2)).get (by decide +kernel)

/-- With 29 buffers never used the buffer of block 1 is recycled for block 2, and block 1
is read again after two blocks. -/
theorem oneReleased_recycled :
    (Reach (AccessStep driverSector) Unguarded (binitHistory fun _ _ => 0) oneReleased ∧
        ¬LruVictim oneReleased 0 2) ∧
      Reach (AccessStep driverSector) Unguarded (binitHistory fun _ _ => 0) oneRecycled ∧
        ¬ReadAgain oneRecycled := by
  have hreleased : Reach (AccessStep driverSector) Unguarded (binitHistory fun _ _ => 0)
      oneReleased :=
    reach_of_follow (fun _ _ _ h => h) (Option.some_get _).symm
  refine ⟨⟨hreleased, fun hvictim => ?_⟩,
    hreleased.tail trivial (show AccessStep _ _ (.bread 1 0 2) _ from (Option.some_get _).symm),
    fun hread => ?_⟩
  · have hlast := hvictim 0 (by decide +kernel) 1 (by decide) (by decide +kernel)
    exact absurd hlast (by decide +kernel)
  · have hmany := hread 1 0 1 1 _ (by rfl) (by decide +kernel) {(0, 2), (0, 1)} (by decide +kernel)
    exact absurd hmany (by decide)

end Painting.BufferCache
