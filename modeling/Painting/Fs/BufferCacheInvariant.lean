import Painting.Fs.BufferCache

/-!
# The buffer cache is a plain disk

The buffers that were ever used are the front of the list and have distinct keys; the
others are as `binit` left them.  From this, by induction over a run, `bread` returns
the data last written to a block.
-/

namespace Painting.BufferCache

open Painting.Transition

variable {sector : ℕ × ℕ → ℕ} {keys : Set (ℕ × ℕ)}

@[simp]
theorem setBuf_buf (cache : Cache) (i : ℕ) (b : Buf) :
    (cache.setBuf i b).buf = Function.update cache.buf i b := rfl

@[simp]
theorem setBuf_list (cache : Cache) (i : ℕ) (b : Buf) :
    (cache.setBuf i b).bcacheList = cache.bcacheList := rfl

@[simp]
theorem setBuf_disk (cache : Cache) (i : ℕ) (b : Buf) : (cache.setBuf i b).disk = cache.disk :=
  rfl

theorem setBuf_setBuf (cache : Cache) (i : ℕ) (first second : Buf) :
    (cache.setBuf i first).setBuf i second = cache.setBuf i second := by
  simp [Cache.setBuf]

/-- The scan finds the first buffer of the block, or else the first without references. -/
theorem bgetLoop_eq (buf : ℕ → Buf) (dev blockno : ℕ) (list : List ℕ) (tmp : Option ℕ) :
    bgetLoop buf dev blockno list tmp =
      match list.find? fun i => (buf i).key = (dev, blockno) with
      | some i => .inl i
      | none => .inr (tmp.or (list.find? fun i => (buf i).refcnt = 0)) := by
  induction list generalizing tmp with
  | nil => simp [bgetLoop]
  | cons i rest ih =>
      rw [bgetLoop, List.find?_cons]
      by_cases hhit : (buf i).key = (dev, blockno)
      · simp only [Buf.key, Prod.mk.injEq] at hhit
        simp [hhit, Buf.key]
      · have hmiss : ¬ ((buf i).dev = dev ∧ (buf i).blockno = blockno) := by
          simpa [Buf.key] using hhit
        rw [if_neg hmiss, ih, decide_eq_false hhit]
        by_cases hfree : (buf i).refcnt = 0
        · cases tmp <;> simp [hfree]
        · simp [hfree]

/-! ## The invariant -/

/-- A buffer as `binit` leaves it. -/
structure Unused (b : Buf) : Prop where
  valid : b.valid = false
  key : b.key = (0, 0)
  locked : b.locked = false
  refcnt : b.refcnt = 0

structure CacheOk (sector : ℕ × ℕ → ℕ) (keys : Set (ℕ × ℕ)) (state : State)
    (used unused : List ℕ) : Prop where
  list : state.cache.bcacheList = used ++ unused
  perm : (used ++ unused).Perm (List.range nbuf)
  valid : ∀ i ∈ used, (state.cache.buf i).valid = true
  inKeys : ∀ i ∈ used, (state.cache.buf i).key ∈ keys
  distinct : ∀ i ∈ used, ∀ j ∈ used,
    (state.cache.buf i).key = (state.cache.buf j).key → i = j
  fresh : ∀ i ∈ unused, Unused (state.cache.buf i)
  refcnt : ∀ i ∈ used,
    (state.cache.buf i).refcnt = if (state.cache.buf i).locked then 1 else 0
  clean : ∀ i ∈ used, state.changed i = false →
    (state.cache.buf i).data = state.cache.disk (sector (state.cache.buf i).key)
  changed : ∀ i, state.changed i = true → (state.cache.buf i).locked = true
  disk : ∀ key ∈ keys, state.cache.disk (sector key) = state.written key

theorem start_ok (sector : ℕ × ℕ → ℕ) (keys : Set (ℕ × ℕ)) (disk : ℕ → Block) :
    CacheOk sector keys (start sector disk) [] (List.range nbuf) := by
  constructor
  case perm => exact List.Perm.refl _
  case fresh => exact fun _ _ => ⟨rfl, rfl, rfl, rfl⟩
  case list => rfl
  case disk => exact fun _ _ => rfl
  case changed => exact fun _ h => absurd h (by simp [start])
  all_goals simp

namespace CacheOk

variable {state : State} {used unused : List ℕ}

theorem mem_iff (hok : CacheOk sector keys state used unused) {i : ℕ} :
    i ∈ used ∨ i ∈ unused ↔ i < nbuf := by
  rw [← List.mem_append, hok.perm.mem_iff, List.mem_range]

theorem nodup (hok : CacheOk sector keys state used unused) : (used ++ unused).Nodup :=
  hok.perm.nodup_iff.mpr List.nodup_range

/-- A buffer that is held was used. -/
theorem mem_used (hok : CacheOk sector keys state used unused) {i : ℕ} (hi : i < nbuf)
    (hlocked : (state.cache.buf i).locked = true) : i ∈ used := by
  refine (hok.mem_iff.mpr hi).resolve_right fun hunused => ?_
  rw [(hok.fresh i hunused).locked] at hlocked
  cases hlocked

theorem refcnt_eq_zero (hok : CacheOk sector keys state used unused) {i : ℕ} (hi : i < nbuf)
    (hlocked : (state.cache.buf i).locked = false) : (state.cache.buf i).refcnt = 0 := by
  obtain hused | hunused := hok.mem_iff.mpr hi
  · rw [hok.refcnt i hused, hlocked]
    rfl
  · exact (hok.fresh i hunused).refcnt

end CacheOk

/-- While fewer than `NBUF` buffers are held one is not. -/
theorem exists_unlocked {cache : Cache} (hheld : cache.held < nbuf) :
    ∃ i < nbuf, (cache.buf i).locked = false := by
  by_contra hall
  push Not at hall
  have hcount : cache.held = (List.range nbuf).length := by
    rw [Cache.held, List.countP_eq_length]
    intro i hi
    simpa using hall i (List.mem_range.mp hi)
  rw [hcount, List.length_range] at hheld
  exact absurd hheld (lt_irrefl _)

/-- The buffer that `bread` takes: one that was used, or the first that was not; no other
used buffer has the block. -/
def Taken (state : State) (used unused : List ℕ) (key : ℕ × ℕ) (i : ℕ) : Prop :=
  (state.cache.buf i).locked = false ∧
    (∀ j ∈ used, j ≠ i → (state.cache.buf j).key ≠ key) ∧
    (i ∈ used ∨ ∃ rest, unused = i :: rest)

/-- The buffer as `bread` returns it. -/
def readBuf (state : State) (pid : ℤ) (dev blockno : ℕ) : Buf :=
  ⟨true, dev, blockno, true, pid, 1, state.written (dev, blockno)⟩

section Bread

variable {state : State} {used unused : List ℕ} {pid : ℤ} {dev blockno : ℕ}

/-- `bread` of a buffer with the right key that is not valid: it is read. -/
theorem bread_of_key (hok : CacheOk sector keys state used unused) (hkey : (dev, blockno) ∈ keys)
    {i : ℕ} {b : Buf} (hb : b.key = (dev, blockno)) (hinvalid : b.valid = false)
    (hlocked : b.locked = true) (hpid : b.pid = pid) (hrefcnt : b.refcnt = 1)
    (hbget : bget state.cache pid dev blockno = some (i, state.cache.setBuf i b)) :
    bread sector state.cache pid dev blockno =
      some (i, state.cache.setBuf i (readBuf state pid dev blockno)) := by
  have hdata : state.cache.disk (sector b.key) = state.written (dev, blockno) := by
    rw [hb]
    exact hok.disk _ hkey
  obtain ⟨rfl, rfl⟩ := Prod.mk.injEq .. ▸ hb
  rw [bread, hbget, Option.map_some]
  simp only [setBuf_buf, Function.update_self, hinvalid, setBuf_disk, hdata, setBuf_setBuf]
  rw [if_neg (by simp), readBuf, hlocked, hpid, hrefcnt]

/-- The hit: the buffer is not held, so its data is the disk's. -/
theorem bread_hit (hok : CacheOk sector keys state used unused) (hkey : (dev, blockno) ∈ keys)
    {i : ℕ} (hi : i < nbuf) (hb : (state.cache.buf i).key = (dev, blockno))
    (hunlocked : (state.cache.buf i).locked = false)
    (hscan : bgetLoop state.cache.buf dev blockno state.cache.bcacheList none = .inl i) :
    bread sector state.cache pid dev blockno =
      some (i, state.cache.setBuf i (readBuf state pid dev blockno)) := by
  have hrefcnt := hok.refcnt_eq_zero hi hunlocked
  have hbget : bget state.cache pid dev blockno = some (i, state.cache.setBuf i
      { state.cache.buf i with locked := true, pid := pid, refcnt := 1 }) := by
    rw [bget, hscan]
    simp [acquiresleeplock, hunlocked, hrefcnt]
  obtain hused | hunused := hok.mem_iff.mpr hi
  · have hvalid := hok.valid i hused
    have hchanged : state.changed i = false := by
      by_contra hchanged
      rw [hok.changed i (by simpa using hchanged)] at hunlocked
      cases hunlocked
    have hdata : (state.cache.buf i).data = state.written (dev, blockno) := by
      rw [hok.clean i hused hchanged, hb]
      exact hok.disk _ hkey
    obtain ⟨hdev, hblockno⟩ := Prod.mk.injEq .. ▸ hb
    rw [bread, hbget, Option.map_some]
    simp only [setBuf_buf, Function.update_self, hvalid]
    rw [if_pos trivial, readBuf, ← hdata, ← hdev, ← hblockno]
  · refine bread_of_key hok hkey ?_ ?_ rfl rfl rfl hbget
    · exact hb
    · exact (hok.fresh i hunused).valid

theorem bread_miss (hok : CacheOk sector keys state used unused) (hkey : (dev, blockno) ∈ keys)
    {i : ℕ} (hunlocked : (state.cache.buf i).locked = false)
    (hscan : bgetLoop state.cache.buf dev blockno state.cache.bcacheList none = .inr (some i)) :
    bread sector state.cache pid dev blockno =
      some (i, state.cache.setBuf i (readBuf state pid dev blockno)) := by
  have hbget : bget state.cache pid dev blockno = some (i, state.cache.setBuf i
      { state.cache.buf i with
        dev := dev, blockno := blockno, valid := false, refcnt := 1, locked := true,
        pid := pid }) := by
    rw [bget, hscan]
    simp [acquiresleeplock, hunlocked]
  exact bread_of_key hok hkey rfl rfl rfl rfl rfl hbget

/-- A buffer found among the unused ones is the first of them, as they are all alike. -/
theorem find_unused (hok : CacheOk sector keys state used unused) {p : Buf → Prop}
    [DecidablePred p] (hsame : ∀ b c, Unused b → Unused c → (p b ↔ p c)) {i : ℕ}
    (hfind : unused.find? (fun i => p (state.cache.buf i)) = some i) :
    ∃ rest, unused = i :: rest := by
  cases hlist : unused with
  | nil =>
      rw [hlist] at hfind
      cases hfind
  | cons first rest =>
      have hfound := List.find?_some hfind
      have hfirst : p (state.cache.buf first) := by
        refine (hsame _ _ (hok.fresh i (List.mem_of_find?_eq_some hfind)) ?_).mp
          (by simpa using hfound)
        exact hok.fresh first (by simp [hlist])
      rw [hlist, List.find?_cons, decide_eq_true hfirst] at hfind
      obtain rfl := Option.some.inj hfind
      exact ⟨rest, rfl⟩

theorem bread_spec_miss (hok : CacheOk sector keys state used unused)
    (hkey : (dev, blockno) ∈ keys) (hheld : state.cache.held < nbuf)
    (hnone : ∀ j ∈ used, (state.cache.buf j).key ≠ (dev, blockno))
    (hscan : bgetLoop state.cache.buf dev blockno state.cache.bcacheList none =
      .inr (none.or ((used.find? fun i => (state.cache.buf i).refcnt = 0).or
        (unused.find? fun i => (state.cache.buf i).refcnt = 0)))) :
    ∃ i, Taken state used unused (dev, blockno) i ∧ i < nbuf ∧
      bread sector state.cache pid dev blockno =
        some (i, state.cache.setBuf i (readBuf state pid dev blockno)) := by
  cases hused : used.find? fun i => (state.cache.buf i).refcnt = 0 with
  | some i =>
      have hi := List.mem_of_find?_eq_some hused
      have hfree : (state.cache.buf i).refcnt = 0 := by simpa using List.find?_some hused
      have hunlocked : (state.cache.buf i).locked = false := by
        by_contra hlocked
        rw [hok.refcnt i hi, if_pos (by simpa using hlocked)] at hfree
        cases hfree
      rw [hused] at hscan
      exact ⟨i, ⟨hunlocked, fun j hj _ => hnone j hj, .inl hi⟩, hok.mem_iff.mp (.inl hi),
        bread_miss hok hkey hunlocked hscan⟩
  | none =>
      cases hunused : unused.find? fun i => (state.cache.buf i).refcnt = 0 with
      | some i =>
          have hi := List.mem_of_find?_eq_some hunused
          have hunlocked := (hok.fresh i hi).locked
          have hfirst := find_unused hok (p := fun b => b.refcnt = 0)
            (fun b c hb hc => by rw [hb.refcnt, hc.refcnt]) hunused
          rw [hused, hunused] at hscan
          exact ⟨i, ⟨hunlocked, fun j hj _ => hnone j hj, .inr hfirst⟩,
            hok.mem_iff.mp (.inr hi), bread_miss hok hkey hunlocked hscan⟩
      | none =>
          obtain ⟨i, hi, hunlocked⟩ := exists_unlocked hheld
          have hfree := hok.refcnt_eq_zero hi hunlocked
          obtain hmem | hmem := hok.mem_iff.mpr hi
          · exact absurd hfree (by simpa using List.find?_eq_none.mp hused i hmem)
          · exact absurd hfree (by simpa using List.find?_eq_none.mp hunused i hmem)

/-- `bread` returns a buffer with the block's key and the data last written to it. -/
theorem bread_spec (hok : CacheOk sector keys state used unused)
    (hallowed : Allowed keys state (.bread pid dev blockno)) :
    ∃ i, Taken state used unused (dev, blockno) i ∧ i < nbuf ∧
      bread sector state.cache pid dev blockno =
        some (i, state.cache.setBuf i (readBuf state pid dev blockno)) := by
  obtain ⟨hkey, hheld, hnot⟩ := hallowed
  have hscan := bgetLoop_eq state.cache.buf dev blockno state.cache.bcacheList none
  rw [hok.list, List.find?_append] at hscan
  have hmem : ∀ i ∈ used ++ unused, i < nbuf := fun i hi =>
    hok.mem_iff.mp (List.mem_append.mp hi)
  cases hused : used.find? fun i => (state.cache.buf i).key = (dev, blockno) with
  | some i =>
      rw [hused, ← hok.list] at hscan
      have hi := List.mem_of_find?_eq_some hused
      have hb : (state.cache.buf i).key = (dev, blockno) := by simpa using List.find?_some hused
      have hlt := hmem i (List.mem_append_left _ hi)
      have hunlocked : (state.cache.buf i).locked = false := by
        by_contra hlocked
        exact hnot i hlt (by simpa using hlocked) hb
      refine ⟨i, ⟨hunlocked, ?_, .inl hi⟩, hlt, bread_hit hok hkey hlt hb hunlocked hscan⟩
      intro j hj hne hj'
      exact hne (hok.distinct j hj i hi (hj'.trans hb.symm))
  | none =>
      have hnone : ∀ j ∈ used, (state.cache.buf j).key ≠ (dev, blockno) := by
        simpa using List.find?_eq_none.mp hused
      cases hunused : unused.find? fun i => (state.cache.buf i).key = (dev, blockno) with
      | some i =>
          rw [hused, hunused, ← hok.list] at hscan
          have hi := List.mem_of_find?_eq_some hunused
          have hb : (state.cache.buf i).key = (dev, blockno) := by
            simpa using List.find?_some hunused
          have hlt := hmem i (List.mem_append_right _ hi)
          have hunlocked := (hok.fresh i hi).locked
          have hfirst := find_unused hok (p := fun b => b.key = (dev, blockno))
            (fun b c hb hc => by rw [hb.key, hc.key]) hunused
          exact ⟨i, ⟨hunlocked, fun j hj _ => hnone j hj, .inr hfirst⟩, hlt,
            bread_hit hok hkey hlt hb hunlocked hscan⟩
      | none =>
          rw [hused, hunused, List.find?_append, ← hok.list] at hscan
          exact bread_spec_miss hok hkey hheld hnone hscan

end Bread

/-! ## Steps -/

section Steps

variable {state after : State} {used unused : List ℕ} {pid : ℤ} {dev blockno i : ℕ}

/-- The buffer that was taken is now the used buffer of its block. -/
theorem CacheOk.take (hok : CacheOk sector keys state used unused)
    (hkey : (dev, blockno) ∈ keys) (htaken : Taken state used unused (dev, blockno) i) :
    ∃ used' unused', CacheOk sector keys
      { state with cache := state.cache.setBuf i (readBuf state pid dev blockno) }
      used' unused' := by
  obtain ⟨hunlocked, hothers, hplace⟩ := htaken
  have hunchanged : state.changed i = false := by
    by_contra hchanged
    rw [hok.changed i (by simpa using hchanged)] at hunlocked
    cases hunlocked
  obtain ⟨used', unused', hlist, hsub, hsub', hapart⟩ : ∃ used' unused',
      used' ++ unused' = used ++ unused ∧ (∀ j ∈ used', j = i ∨ j ∈ used) ∧
        (∀ j ∈ unused', j ∈ unused) ∧ i ∉ unused' := by
    have hnodup := hok.nodup
    obtain hused | ⟨rest, rfl⟩ := hplace
    · refine ⟨used, unused, rfl, fun j hj => .inr hj, fun j hj => hj, ?_⟩
      exact fun hi => (List.nodup_append.mp hnodup).2.2 i hused i hi rfl
    · refine ⟨used ++ [i], rest, by simp, ?_, fun j hj => List.mem_cons_of_mem i hj, ?_⟩
      · intro j hj
        obtain hj | hj := List.mem_append.mp hj
        · exact .inr hj
        · exact .inl (List.mem_singleton.mp hj)
      · exact (List.nodup_cons.mp (List.nodup_append.mp hnodup).2.1).1
  have hself : Function.update state.cache.buf i (readBuf state pid dev blockno) i =
      readBuf state pid dev blockno := Function.update_self _ _ _
  have hother : ∀ j, j ≠ i →
      Function.update state.cache.buf i (readBuf state pid dev blockno) j = state.cache.buf j :=
    fun j hne => Function.update_of_ne hne _ _
  refine ⟨used', unused', ?_, ?_, ?_, ?_, ?_, ?_, ?_, ?_, ?_, hok.disk⟩
  · exact hok.list.trans hlist.symm
  · rw [hlist]
    exact hok.perm
  · intro j hj
    by_cases hne : j = i
    · simp [hne, readBuf]
    · simpa [hother j hne] using hok.valid j ((hsub j hj).resolve_left hne)
  · intro j hj
    by_cases hne : j = i
    · simpa [hne, readBuf, Buf.key] using hkey
    · simpa [hother j hne] using hok.inKeys j ((hsub j hj).resolve_left hne)
  · intro j hj k hk heq
    by_cases hj' : j = i
    · by_cases hk' : k = i
      · exact hj'.trans hk'.symm
      · simp only [setBuf_buf, hj', hself, hother k hk'] at heq
        exact absurd heq.symm (hothers k ((hsub k hk).resolve_left hk') hk')
    · by_cases hk' : k = i
      · simp only [setBuf_buf, hk', hself, hother j hj'] at heq
        exact absurd heq (hothers j ((hsub j hj).resolve_left hj') hj')
      · simp only [setBuf_buf, hother j hj', hother k hk'] at heq
        exact hok.distinct j ((hsub j hj).resolve_left hj') k ((hsub k hk).resolve_left hk') heq
  · intro j hj
    have hne : j ≠ i := by
      rintro rfl
      exact hapart hj
    simpa [hother j hne] using hok.fresh j (hsub' j hj)
  · intro j hj
    by_cases hne : j = i
    · simp [hne, readBuf]
    · simpa [hother j hne] using hok.refcnt j ((hsub j hj).resolve_left hne)
  · intro j hj hunchanged
    by_cases hne : j = i
    · simpa [hne, readBuf, Buf.key] using (hok.disk _ hkey).symm
    · simpa [hother j hne] using hok.clean j ((hsub j hj).resolve_left hne) hunchanged
  · intro j hj
    by_cases hne : j = i
    · simp [hne, readBuf]
    · simpa [hother j hne] using hok.changed j hj

/-- An update that leaves keys and validity alone. -/
structure SameKeys (before after : ℕ → Buf) : Prop where
  key : ∀ j, (after j).key = (before j).key
  valid : ∀ j, (after j).valid = (before j).valid

theorem sameKeys_update {buf : ℕ → Buf} {b : Buf} (hkey : b.key = (buf i).key)
    (hvalid : b.valid = (buf i).valid) : SameKeys buf (Function.update buf i b) := by
  constructor <;> intro j <;> rw [Function.update_apply] <;> split
  case key.isTrue heq => rw [heq, hkey]
  case valid.isTrue heq => rw [heq, hvalid]
  all_goals rfl

theorem CacheOk.change (hok : CacheOk sector keys state used unused) (hused : i ∈ used)
    (hlocked : (state.cache.buf i).locked = true) (data : Block) :
    CacheOk sector keys
      { state with
        cache := state.cache.setBuf i { state.cache.buf i with data := data }
        changed := Function.update state.changed i true } used unused := by
  have hsame := @sameKeys_update i state.cache.buf { state.cache.buf i with data := data } rfl rfl
  have hunused : ∀ j ∈ unused, j ≠ i := fun j hj heq =>
    (List.nodup_append.mp hok.nodup).2.2 i hused j hj heq.symm
  constructor
  case list => exact hok.list
  case perm => exact hok.perm
  case valid => exact fun j hj => (hsame.valid j).trans (hok.valid j hj)
  case inKeys =>
    intro j hj
    rw [setBuf_buf, hsame.key j]
    exact hok.inKeys j hj
  case distinct =>
    intro j hj k hk heq
    rw [setBuf_buf, hsame.key j, hsame.key k] at heq
    exact hok.distinct j hj k hk heq
  case fresh =>
    intro j hj
    rw [setBuf_buf, Function.update_of_ne (hunused j hj)]
    exact hok.fresh j hj
  case refcnt =>
    intro j hj
    have hold := hok.refcnt j hj
    by_cases hne : j = i
    · subst hne
      simpa using hold
    · simpa [Function.update_of_ne hne] using hold
  case clean =>
    intro j hj hunchanged
    by_cases hne : j = i
    · simp [hne] at hunchanged
    · have hkept : state.changed j = false := by
        simpa [Function.update_of_ne hne] using hunchanged
      simpa [Function.update_of_ne hne] using hok.clean j hj hkept
  case changed =>
    intro j hj
    by_cases hne : j = i
    · simpa [hne] using hlocked
    · have hkept : state.changed j = true := by
        simpa [Function.update_of_ne hne] using hj
      simpa [Function.update_of_ne hne] using hok.changed j hkept
  case disk => exact hok.disk

theorem CacheOk.bwrite (hsector : Set.InjOn sector keys)
    (hok : CacheOk sector keys state used unused) (hused : i ∈ used) :
    CacheOk sector keys
      { cache := { state.cache with
          disk := Function.update state.cache.disk (sector (state.cache.buf i).key)
            (state.cache.buf i).data }
        written := Function.update state.written (state.cache.buf i).key (state.cache.buf i).data
        changed := Function.update state.changed i false } used unused := by
  have hplace : ∀ key ∈ keys, key ≠ (state.cache.buf i).key →
      sector key ≠ sector (state.cache.buf i).key := fun key hkey hne heq =>
    hne (hsector hkey (hok.inKeys i hused) heq)
  refine ⟨hok.list, hok.perm, hok.valid, hok.inKeys, hok.distinct, hok.fresh, hok.refcnt, ?_, ?_,
    ?_⟩
  · intro j hj hunchanged
    by_cases hne : j = i
    · simp [hne]
    · have hkeys : (state.cache.buf j).key ≠ (state.cache.buf i).key := fun heq =>
        hne (hok.distinct j hj i hused heq)
      have hkept : state.changed j = false := by
        simpa [Function.update_of_ne hne] using hunchanged
      dsimp only
      rw [Function.update_of_ne (hplace _ (hok.inKeys j hj) hkeys)]
      exact hok.clean j hj hkept
  · intro j hj
    by_cases hne : j = i
    · simp [hne] at hj
    · have hkept : state.changed j = true := by
        simpa [Function.update_of_ne hne] using hj
      exact hok.changed j hkept
  · intro key hkey
    dsimp only
    by_cases heq : key = (state.cache.buf i).key
    · rw [heq, Function.update_self, Function.update_self]
    · rw [Function.update_of_ne heq, Function.update_of_ne (hplace key hkey heq)]
      exact hok.disk key hkey

theorem CacheOk.brelse (hok : CacheOk sector keys state used unused) (hused : i ∈ used)
    (hunchanged : state.changed i = false) :
    CacheOk sector keys
      { state with cache :=
        { state.cache.setBuf i { state.cache.buf i with locked := false, pid := -1, refcnt := 0 } with
          bcacheList := i :: state.cache.bcacheList.erase i } } (i :: used.erase i) unused := by
  have hsame := @sameKeys_update i state.cache.buf
    { state.cache.buf i with locked := false, pid := -1, refcnt := 0 } rfl rfl
  have hmem : ∀ j ∈ i :: used.erase i, j ∈ used := by
    intro j hj
    obtain rfl | hj := List.mem_cons.mp hj
    · exact hused
    · exact List.mem_of_mem_erase hj
  have hunused : ∀ j ∈ unused, j ≠ i := fun j hj heq =>
    (List.nodup_append.mp hok.nodup).2.2 i hused j hj heq.symm
  constructor
  case list => rw [hok.list, List.erase_append_left _ hused, List.cons_append]
  case perm =>
    refine List.Perm.trans ?_ hok.perm
    exact (List.perm_cons_erase hused).symm.append_right unused
  case valid => exact fun j hj => (hsame.valid j).trans (hok.valid j (hmem j hj))
  case inKeys =>
    intro j hj
    dsimp only
    rw [setBuf_buf, hsame.key j]
    exact hok.inKeys j (hmem j hj)
  case distinct =>
    intro j hj k hk heq
    dsimp only at heq
    rw [setBuf_buf, hsame.key j, hsame.key k] at heq
    exact hok.distinct j (hmem j hj) k (hmem k hk) heq
  case fresh =>
    intro j hj
    dsimp only
    rw [setBuf_buf, Function.update_of_ne (hunused j hj)]
    exact hok.fresh j hj
  case refcnt =>
    intro j hj
    by_cases hne : j = i
    · simp [hne]
    · simpa [Function.update_of_ne hne] using hok.refcnt j (hmem j hj)
  case clean =>
    intro j hj hj'
    have hold := hok.clean j (hmem j hj) hj'
    by_cases hne : j = i
    · subst hne
      simpa [Buf.key] using hold
    · simpa [Function.update_of_ne hne] using hold
  case changed =>
    intro j hj
    have hne : j ≠ i := by
      rintro rfl
      exact absurd hj (by simp [hunchanged])
    simpa [Function.update_of_ne hne] using hok.changed j hj
  case disk => exact hok.disk

end Steps

/-! ## Runs -/

/-- No two buffers that are valid or referenced carry the same key. -/
def KeysDistinct (cache : Cache) : Prop :=
  ∀ i < nbuf, ∀ j < nbuf,
    ((cache.buf i).valid = true ∨ 0 < (cache.buf i).refcnt) →
    ((cache.buf j).valid = true ∨ 0 < (cache.buf j).refcnt) →
    (cache.buf i).key = (cache.buf j).key → i = j

/-- `bread` returns, and its buffer has the block's key and the data last written. -/
def ReadsLast (sector : ℕ × ℕ → ℕ) (state : State) (pid : ℤ) (dev blockno : ℕ) : Prop :=
  ∃ i cache', bread sector state.cache pid dev blockno = some (i, cache') ∧ i < nbuf ∧
    (cache'.buf i).key = (dev, blockno) ∧ (cache'.buf i).data = state.written (dev, blockno)

theorem CacheOk.keysDistinct {state : State} {used unused : List ℕ}
    (hok : CacheOk sector keys state used unused) : KeysDistinct state.cache := by
  have hused : ∀ i < nbuf, ((state.cache.buf i).valid = true ∨ 0 < (state.cache.buf i).refcnt) →
      i ∈ used := by
    intro i hi hlive
    refine (hok.mem_iff.mpr hi).resolve_right fun hunused => ?_
    obtain ⟨hvalid, _, _, hrefcnt⟩ := hok.fresh i hunused
    rw [hvalid, hrefcnt] at hlive
    simp at hlive
  intro i hi j hj hlive hlive' heq
  exact hok.distinct i (hused i hi hlive) j (hused j hj hlive') heq

theorem CacheOk.readsLast {state : State} {used unused : List ℕ}
    (hok : CacheOk sector keys state used unused) {pid : ℤ} {dev blockno : ℕ}
    (hallowed : Allowed keys state (.bread pid dev blockno)) :
    ReadsLast sector state pid dev blockno := by
  obtain ⟨i, _, hi, hread⟩ := bread_spec hok hallowed
  refine ⟨i, _, hread, hi, ?_, ?_⟩
  · simp [readBuf, Buf.key]
  · simp [readBuf]

/-- An allowed call returns and keeps the invariant. -/
theorem call_ok (hsector : Set.InjOn sector keys) {state : State} {used unused : List ℕ}
    (hok : CacheOk sector keys state used unused) {c : Call} (hallowed : Allowed keys state c) :
    ∃ after, call sector state c = some after ∧
      ∃ used' unused', CacheOk sector keys after used' unused' := by
  cases c with
  | bread pid dev blockno =>
      obtain ⟨i, htaken, _, hread⟩ := bread_spec hok hallowed
      rw [call, hread]
      exact ⟨_, rfl, hok.take hallowed.1 htaken⟩
  | change pid i data =>
      obtain ⟨hi, hholding⟩ := hallowed
      have hused := hok.mem_used hi hholding.1
      exact ⟨_, rfl, used, unused, hok.change hused hholding.1 data⟩
  | bwrite pid i =>
      obtain ⟨hi, hholding⟩ := hallowed
      have hused := hok.mem_used hi hholding.1
      rw [call, bwrite, if_pos hholding]
      exact ⟨_, rfl, used, unused, hok.bwrite hsector hused⟩
  | brelse pid i =>
      obtain ⟨hi, hholding, hunchanged⟩ := hallowed
      have hused := hok.mem_used hi hholding.1
      have hrefcnt : ((state.cache.buf i).refcnt + 2 ^ 32 - 1) % 2 ^ 32 = 0 := by
        rw [hok.refcnt i hused, hholding.1]
        rfl
      rw [call, brelse, if_pos hholding]
      simp only [hrefcnt]
      exact ⟨_, rfl, _, unused, hok.brelse hused hunchanged⟩

/-- In every run in which callers keep to the rules every call returns, no two live
buffers share a key, and `bread` returns what was last written. -/
theorem cache_of_reach (hsector : Set.InjOn sector keys) {disk : ℕ → Block} {state : State}
    (hreach : Reach (CacheStep sector) (Allowed keys) (start sector disk) state) :
    KeysDistinct state.cache ∧
      (∀ pid dev blockno, Allowed keys state (.bread pid dev blockno) →
        ReadsLast sector state pid dev blockno) ∧
      ∀ c, Allowed keys state c → ∃ after, CacheStep sector state c after := by
  have hok : ∃ used unused, CacheOk sector keys state used unused := by
    apply hreach.invariant ⟨[], List.range nbuf, start_ok sector keys disk⟩
    rintro before c after ⟨used, unused, hok⟩ hallowed hstep
    obtain ⟨after', hcall, hok'⟩ := call_ok hsector hok hallowed
    obtain rfl := Option.some.inj (hcall.symm.trans hstep)
    exact hok'
  obtain ⟨used, unused, hok⟩ := hok
  refine ⟨hok.keysDistinct, fun pid dev blockno => hok.readsLast, fun c hallowed => ?_⟩
  obtain ⟨after, hcall, _⟩ := call_ok hsector hok hallowed
  exact ⟨after, hcall⟩

/-- The driver's place of a block: it has one device and goes by the block number. -/
def driverSector (key : ℕ × ℕ) : ℕ := key.2

/-- The blocks of device 0. -/
def deviceZero : Set (ℕ × ℕ) := {key | key.1 = 0}

theorem driverSector_injOn : Set.InjOn driverSector deviceZero := by
  intro left hleft right hright heq
  exact Prod.ext (hleft.trans hright.symm) heq

/-- Process 1 has read block 0 of device 0 from a zero disk. -/
def zeroRead : State :=
  (call driverSector (start driverSector fun _ _ => 0) (.bread 1 0 0)).get (by decide +kernel)

/-- It has changed the data. -/
def zeroChanged : State :=
  (call driverSector zeroRead (.change 1 0 fun _ => 7)).get rfl

/-- A changed block is written, and two live buffers never share its key. -/
theorem cache_blockZero :
    KeysDistinct zeroChanged.cache ∧
      ∃ after, CacheStep driverSector zeroChanged (.bwrite 1 0) after := by
  have hread : Reach (CacheStep driverSector) (Allowed deviceZero)
      (start driverSector fun _ _ => 0) zeroRead := by
    refine Reach.refl.tail (show Allowed deviceZero _ (.bread 1 0 0) from ⟨rfl, ?_, ?_⟩)
      (Option.some_get _).symm
    · decide +kernel
    · intro i _ hlocked
      cases hlocked
  have hchanged : Reach (CacheStep driverSector) (Allowed deviceZero)
      (start driverSector fun _ _ => 0) zeroChanged :=
    hread.tail (show Allowed deviceZero _ (.change 1 0 fun _ => 7) from
      ⟨by decide, by decide +kernel⟩) (Option.some_get _).symm
  obtain ⟨hdistinct, _, hreturns⟩ := cache_of_reach driverSector_injOn hchanged
  exact ⟨hdistinct, hreturns (.bwrite 1 0) ⟨by decide, by decide +kernel⟩⟩

end Painting.BufferCache
