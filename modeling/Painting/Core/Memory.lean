import Mathlib

/-!
# Byte-addressed memory

A memory is a total map from addresses to bytes.  Wider accesses are
little-endian and given by their width in bytes, so that one family of lemmas
serves link words, boundary tags, page-table entries and disk sectors alike.
-/

namespace Painting.Memory

abbrev Mem := ℕ → UInt8

/-- The `width` bytes at `addr`, least significant byte first. -/
def load (mem : Mem) (addr : ℕ) : ℕ → ℕ
  | 0 => 0
  | width + 1 => (mem addr).toNat + 256 * load mem (addr + 1) width

/-- Replace the `width` bytes at `addr` by the low bytes of `value`. -/
def store (mem : Mem) (addr width value : ℕ) : Mem := fun x =>
  if addr ≤ x ∧ x < addr + width then UInt8.ofNat (value / 256 ^ (x - addr)) else mem x

/-- `memset`: fill `count` bytes with one value. -/
def fill (mem : Mem) (addr : ℕ) (value : UInt8) (count : ℕ) : Mem := fun x =>
  if addr ≤ x ∧ x < addr + count then value else mem x

/-- Put the bytes `bytes 0 .. bytes (count - 1)` at `addr`. -/
def blit (mem : Mem) (addr : ℕ) (bytes : ℕ → UInt8) (count : ℕ) : Mem := fun x =>
  if addr ≤ x ∧ x < addr + count then bytes (x - addr) else mem x

/-- Two memories hold the same bytes in `[lo, hi)`. -/
def AgreeOn (mem mem' : Mem) (lo hi : ℕ) : Prop :=
  ∀ x, lo ≤ x → x < hi → mem' x = mem x

theorem AgreeOn.refl (mem : Mem) (lo hi : ℕ) : AgreeOn mem mem lo hi :=
  fun _ _ _ => rfl

theorem AgreeOn.trans {first second third : Mem} {lo hi : ℕ}
    (hleft : AgreeOn first second lo hi) (hright : AgreeOn second third lo hi) :
    AgreeOn first third lo hi := fun x hlo hhi =>
  (hright x hlo hhi).trans (hleft x hlo hhi)

theorem AgreeOn.mono {mem mem' : Mem} {lo hi lo' hi' : ℕ}
    (hagree : AgreeOn mem mem' lo hi) (hlo : lo ≤ lo') (hhi : hi' ≤ hi) :
    AgreeOn mem mem' lo' hi' := fun x hx hx' =>
  hagree x (hlo.trans hx) (hx'.trans_le hhi)

/-- The second memory differs from the first at most inside `[lo, hi)`. -/
def ChangesIn (mem mem' : Mem) (lo hi : ℕ) : Prop :=
  ∀ x, x < lo ∨ hi ≤ x → mem' x = mem x

theorem ChangesIn.refl (mem : Mem) (lo hi : ℕ) : ChangesIn mem mem lo hi :=
  fun _ _ => rfl

theorem ChangesIn.trans {first second third : Mem} {lo hi : ℕ}
    (hleft : ChangesIn first second lo hi) (hright : ChangesIn second third lo hi) :
    ChangesIn first third lo hi := fun x hx =>
  (hright x hx).trans (hleft x hx)

theorem ChangesIn.mono {mem mem' : Mem} {lo hi lo' hi' : ℕ} (hchanges : ChangesIn mem mem' lo hi)
    (hlo : lo' ≤ lo) (hhi : hi ≤ hi') : ChangesIn mem mem' lo' hi' := fun x hx =>
  hchanges x (by omega)

theorem ChangesIn.agreeOn {mem mem' : Mem} {lo hi from_ upto : ℕ}
    (hchanges : ChangesIn mem mem' lo hi) (hout : upto ≤ lo ∨ hi ≤ from_) :
    AgreeOn mem mem' from_ upto := fun x hlo hhi =>
  hchanges x (by omega)

/-- Bytes outside the stored range keep their value. -/
theorem store_apply_of_out (mem : Mem) {addr width value x : ℕ}
    (hout : x < addr ∨ addr + width ≤ x) : store mem addr width value x = mem x := by
  rw [store, if_neg]
  omega

theorem fill_apply_of_out (mem : Mem) {addr count x : ℕ} {value : UInt8}
    (hout : x < addr ∨ addr + count ≤ x) : fill mem addr value count x = mem x := by
  rw [fill, if_neg]
  omega

theorem fill_apply_of_in (mem : Mem) {addr count x : ℕ} {value : UInt8}
    (hlo : addr ≤ x) (hhi : x < addr + count) : fill mem addr value count x = value := by
  rw [fill, if_pos ⟨hlo, hhi⟩]

theorem store_changesIn (mem : Mem) {addr width value lo hi : ℕ} (hlo : lo ≤ addr)
    (hhi : addr + width ≤ hi) : ChangesIn mem (store mem addr width value) lo hi := fun _ hx =>
  store_apply_of_out mem (by omega)

theorem store_agreeOn (mem : Mem) {addr width value lo hi : ℕ}
    (hout : hi ≤ addr ∨ addr + width ≤ lo) :
    AgreeOn mem (store mem addr width value) lo hi := fun _ hlo hhi =>
  store_apply_of_out mem (by omega)

theorem fill_agreeOn (mem : Mem) {addr count lo hi : ℕ} {value : UInt8}
    (hout : hi ≤ addr ∨ addr + count ≤ lo) :
    AgreeOn mem (fill mem addr value count) lo hi := fun _ hlo hhi =>
  fill_apply_of_out mem (by omega)

/-- A load reads only its own bytes. -/
theorem AgreeOn.load_eq {mem mem' : Mem} {addr : ℕ} {width : ℕ}
    (hagree : AgreeOn mem mem' addr (addr + width)) :
    load mem' addr width = load mem addr width := by
  induction width generalizing addr with
  | zero => rfl
  | succ width ih =>
      have htail : AgreeOn mem mem' (addr + 1) (addr + 1 + width) :=
        hagree.mono (by omega) (by omega)
      simp only [load, ih htail, hagree addr le_rfl (by omega)]

theorem load_lt (mem : Mem) (addr width : ℕ) : load mem addr width < 256 ^ width := by
  induction width generalizing addr with
  | zero => simp [load]
  | succ width ih =>
      have hbyte : (mem addr).toNat < 256 := UInt8.toNat_lt _
      have htail := ih (addr + 1)
      simp only [load, pow_succ]
      omega

/-- Reading back a stored word gives its low `width` bytes. -/
theorem load_store_same (mem : Mem) (addr width value : ℕ) :
    load (store mem addr width value) addr width = value % 256 ^ width := by
  induction width generalizing mem addr value with
  | zero => simp [load, Nat.mod_one]
  | succ width ih =>
      have htail : AgreeOn (store mem (addr + 1) width (value / 256))
          (store mem addr (width + 1) value) (addr + 1) (addr + 1 + width) := by
        intro x hlo hhi
        rw [store, store, if_pos (by omega), if_pos (by omega), Nat.div_div_eq_div_mul,
          ← pow_succ', show x - (addr + 1) + 1 = x - addr by omega]
      have hhead : (store mem addr (width + 1) value addr).toNat = value % 256 := by
        simp [store, UInt8.toNat_ofNat']
      rw [load, htail.load_eq, ih, hhead, pow_succ', Nat.mod_mul]

theorem load_store_of_lt (mem : Mem) {addr width value : ℕ} (hvalue : value < 256 ^ width) :
    load (store mem addr width value) addr width = value := by
  rw [load_store_same, Nat.mod_eq_of_lt hvalue]

/-- A store elsewhere is invisible to a load. -/
theorem load_store_of_disjoint (mem : Mem) {addr width at_ size value : ℕ}
    (hout : addr + width ≤ at_ ∨ at_ + size ≤ addr) :
    load (store mem at_ size value) addr width = load mem addr width :=
  (store_agreeOn mem hout).load_eq

theorem load_fill_zero (mem : Mem) {addr count at_ width : ℕ}
    (hlo : addr ≤ at_) (hhi : at_ + width ≤ addr + count) :
    load (fill mem addr 0 count) at_ width = 0 := by
  induction width generalizing at_ with
  | zero => rfl
  | succ width ih =>
      rw [load, ih (by omega) (by omega), fill_apply_of_in mem hlo (by omega)]
      rfl

/-- The bytes of a loaded word. -/
theorem load_div (mem : Mem) (addr : ℕ) {width i : ℕ} (hi : i < width) :
    load mem addr width / 256 ^ i % 256 = (mem (addr + i)).toNat := by
  induction width generalizing addr i with
  | zero => omega
  | succ width ih =>
      have hbyte : (mem addr).toNat < 256 := UInt8.toNat_lt _
      rw [load]
      cases i with
      | zero =>
          rw [pow_zero, Nat.div_one, Nat.add_mul_mod_self_left, Nat.mod_eq_of_lt hbyte,
            Nat.add_zero]
      | succ i =>
          rw [pow_succ', ← Nat.div_div_eq_div_mul, Nat.add_mul_div_left _ _ (by decide),
            Nat.div_eq_of_lt hbyte, Nat.zero_add, ih (addr + 1) (by omega),
            Nat.add_assoc, Nat.add_comm 1]

/-- Storing a word over itself changes nothing. -/
theorem store_load (mem : Mem) (addr width : ℕ) :
    store mem addr width (load mem addr width) = mem := by
  funext x
  rw [store]
  split
  · rename_i hin
    have hdiv := load_div mem addr (show x - addr < width by omega)
    rw [show addr + (x - addr) = x by omega] at hdiv
    apply UInt8.toNat.inj
    rw [UInt8.toNat_ofNat', hdiv]
  · rfl

theorem store_store (mem : Mem) (addr width first second : ℕ) :
    store (store mem addr width first) addr width second = store mem addr width second := by
  funext x
  simp only [store]
  split <;> rfl

end Painting.Memory
