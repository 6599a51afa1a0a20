import YohdaOS.Pool.Run

/-!
# `pl_alloc` without a free chunk

`pl_alloc` looks at the head of the class only.  When all chunks are live the head is the end of
the area, which the next allocation hands out.
-/

namespace YohdaOS

open ByteMem Recycle

/-- `pl_alloc` fails and moves no head and no counter. -/
structure PoolRefusedOk (s : Mm) (size : ℤ) : Prop where
  code : ∃ e, (plAlloc s size).1 = .code e
  head : ∀ j, ((plAlloc s size).2.pools j).head = (s.pools j).head
  frees : ∀ j, ((plAlloc s size).2.pools j).frees = (s.pools j).frees

/-- A step of any user: sizes and addresses are arbitrary, and nothing bounds the live chunks. -/
inductive PoolAnyStep : Mm → Mm → Prop
  | alloc (s : Mm) (size : ℤ) : PoolAnyStep s (plAlloc s size).2
  | free (s : Mm) (a : ℕ) : PoolAnyStep s (plFree s a)
  | write (s : Mm) (m : Mem) : PoolAnyStep s { s with mem := m }

theorem poolAnyStep_same {s s' : Mm} (h : PoolAnyStep s s') : PoolSame s s' := by
  cases h with
  | alloc size => exact same_plAlloc s size
  | free a => exact same_plFree s a
  | write m => constructor <;> intros <;> rfl

/-- A size with a class is served whatever the counter of the class says. -/
theorem not_poolRefused {s : Mm} (L : PoolLayout s) {size : ℤ} (hpos : 1 ≤ size) {i : ℕ}
    (hclass : IsPoolClass size i) : ¬ PoolRefusedOk s size := by
  intro h
  obtain ⟨e, he⟩ := h.code
  obtain ⟨hchunk, hord⟩ := plGetChunk_of_class L hpos hclass
  have hi := hclass.lt
  have hpow : 2 ^ i ≤ 2 ^ 6 := Nat.pow_le_pow_right (by decide) (by omega)
  have hneg (n : ℕ) : ¬ (n : ℤ) < 0 := by omega
  simp only [plAlloc, if_neg (show ¬ size < 1 by omega), hchunk, if_neg (hneg _),
    toU32_natCast (show 16 * 2 ^ i < 4294967296 by omega), hord, reduceCtorEq] at he

/-- A class with all its chunks live hands out the end of its area. -/
theorem plAlloc_full {s : Mm} {live : ℕ → List ℕ} (h : PoolInv s live) {size : ℤ} (hpos : 1 ≤ size)
    {i : ℕ} (hclass : IsPoolClass size i) (hfull : (s.pools i).frees = 0) :
    (plAlloc s size).1 = .addr (u32 ((s.pools i).base + (s.pools i).size + 4)) := by
  have L := h.layout
  have hi := hclass.lt
  obtain ⟨hchunk, hord⟩ := plGetChunk_of_class L hpos hclass
  obtain ⟨cap, r, hr, -⟩ := h.ok i hi
  have hpow : 2 ^ i ≤ 2 ^ 6 := Nat.pow_le_pow_right (by decide) (by omega)
  -- all slots are in use, so the chain is empty and the frontier is the capacity
  have hlen := r.length_eq
  have hle := r.frontier_le
  have hfr := hr.frees
  have hnil : r.freed = [] := List.eq_nil_of_length_eq_zero (by omega)
  have hhead : (s.pools i).head = (s.pools i).base + (s.pools i).size := by
    have hch := hr.chain
    rw [hnil, List.map_nil, Chains.chain_nil, Mm.slot, show r.frontier = s.cap i by
      rw [hr.cap_eq]
      rw [hnil, List.length_nil] at hlen
      omega, L.stride_mul_cap hi] at hch
    exact hch
  have hneg (n : ℕ) : ¬ (n : ℤ) < 0 := by omega
  simp only [plAlloc, if_neg (show ¬ size < 1 by omega), hchunk, if_neg (hneg _),
    toU32_natCast (show 16 * 2 ^ i < 4294967296 by omega), hord, Int.toNat_natCast, hhead,
    POOL_HEADER_SIZE]

theorem chunk_class {i : ℕ} (hi : i < 7) :
    (1 : ℤ) ≤ (16 * 2 ^ i : ℕ) ∧ IsPoolClass (16 * 2 ^ i : ℕ) i := by
  have hpos : 0 < 2 ^ i := by positivity
  refine ⟨by omega, hi, le_rfl, fun k hk => ?_⟩
  have := Nat.pow_lt_pow_right (show 1 < 2 by decide) hk
  omega

/-- Allocations alone fill a class up to any number of chunks it has. -/
theorem exists_run_of_le_cap {s : Mm} (h : PoolInv s fun _ => []) {i : ℕ} (hi : i < 7) (n : ℕ)
    (hn : n ≤ s.cap i) : ∃ r, Relation.ReflTransGen PoolStep ⟨s, fun _ => []⟩ r ∧
      (r.live i).length = n := by
  induction n with
  | zero => exact ⟨_, .refl, rfl⟩
  | succ n ih =>
    obtain ⟨r, hrun, hlen⟩ := ih (by omega)
    have hsame := (poolRun_inv h hrun).2
    obtain ⟨hpos, hclass⟩ := chunk_class hi
    refine ⟨_, hrun.tail (.alloc r _ i hpos hclass (by rw [hsame.cap]; omega)), ?_⟩
    simp [hlen]

/-- One allocation more leaves the area of the class. -/
theorem exists_escape {s : Mm} (h : PoolInv s fun _ => []) {i : ℕ} (hi : i < 7) :
    ∃ r, Relation.ReflTransGen PoolStep ⟨s, fun _ => []⟩ r ∧ (r.s.pools i).frees = 0 ∧
      ∃ a, (plAlloc r.s (16 * 2 ^ i : ℕ)).1 = .addr a ∧
        ¬ ((r.s.pools i).base ≤ a ∧ a < (r.s.pools i).base + (r.s.pools i).size) := by
  obtain ⟨r, hrun, hlen⟩ := exists_run_of_le_cap h hi _ le_rfl
  obtain ⟨hinv, hsame⟩ := poolRun_inv h hrun
  have L := hinv.layout
  have hfrees := hinv.frees hi
  rw [hsame.cap, hlen] at hfrees
  obtain ⟨hpos, hclass⟩ := chunk_class hi
  refine ⟨r, hrun, by omega, _, plAlloc_full hinv hpos hclass (by omega), ?_⟩
  -- the end of the area, or an address below all areas when it wraps
  have hend := L.area_end hi
  have hfits := L.fits
  have hroom := L.base_ge
  have hlo := L.base_le hi
  unfold u32
  omega

/-- After any history a class without a free chunk still serves its sizes, and for every region
that `pl_init` accepts and every class some run of allocations ends with an address outside the area
of the class. -/
theorem plAlloc_never_refuses (s₀ : Mm) (base : ℕ) (size : ℤ) (hfit : base + size < 4294967296)
    (hok : 0 ≤ (plInit s₀ base size).1) :
    (∀ s, Relation.ReflTransGen PoolAnyStep (plInit s₀ base size).2 s → ∀ i sz, 1 ≤ sz →
      IsPoolClass sz i → (s.pools i).frees = 0 → ¬ PoolRefusedOk s sz) ∧
    ∀ i < 7, ∃ r, Relation.ReflTransGen PoolStep ⟨(plInit s₀ base size).2, fun _ => []⟩ r ∧
      (r.s.pools i).frees = 0 ∧ ∃ a, (plAlloc r.s (16 * 2 ^ i : ℕ)).1 = .addr a ∧
        ¬ ((r.s.pools i).base ≤ a ∧ a < (r.s.pools i).base + (r.s.pools i).size) := by
  have hpost := plInit_spec s₀ hfit hok
  refine ⟨fun s hrun i sz hpos hclass _ => ?_, fun i hi => exists_escape hpost.inv hi⟩
  have hsame : PoolSame (plInit s₀ base size).2 s :=
    Runs.invariant_of_run hrun (PoolSame.refl _) fun _ _ h hstep => h.trans (poolAnyStep_same hstep)
  exact not_poolRefused (hsame.layout hpost.inv.layout) hpos hclass

theorem plAlloc_never_refuses_512K :
    (∀ s, Relation.ReflTransGen PoolAnyStep
      (plInit (.boot ⟨fun _ => 0⟩ 4 12) 0x2000000 0x80000).2 s → ∀ i sz, 1 ≤ sz →
      IsPoolClass sz i → (s.pools i).frees = 0 → ¬ PoolRefusedOk s sz) ∧
    ∀ i < 7, ∃ r, Relation.ReflTransGen PoolStep
      ⟨(plInit (.boot ⟨fun _ => 0⟩ 4 12) 0x2000000 0x80000).2, fun _ => []⟩ r ∧
      (r.s.pools i).frees = 0 ∧ ∃ a, (plAlloc r.s (16 * 2 ^ i : ℕ)).1 = .addr a ∧
        ¬ ((r.s.pools i).base ≤ a ∧ a < (r.s.pools i).base + (r.s.pools i).size) :=
  plAlloc_never_refuses _ 0x2000000 0x80000 (by decide)
    ((plInit_ok_iff _ (by decide)).2 (by decide))

/-- In a pool of 512 KB some run of allocations leaves class 0 without a free chunk, and the next
request for 16 bytes is served with an address outside the area of the class. -/
theorem plAlloc_refuses_fails : ∃ r, Relation.ReflTransGen PoolStep
      ⟨(plInit (.boot ⟨fun _ => 0⟩ 4 12) 0x2000000 0x80000).2, fun _ => []⟩ r ∧
    (r.s.pools 0).frees = 0 ∧ ¬ PoolRefusedOk r.s 16 ∧ ∃ a, (plAlloc r.s 16).1 = .addr a ∧
      ¬ ((r.s.pools 0).base ≤ a ∧ a < (r.s.pools 0).base + (r.s.pools 0).size) := by
  have hpost : PoolPost 0x2000000 0x80000 (.boot ⟨fun _ => 0⟩ 4 12)
      (plInit (.boot ⟨fun _ => 0⟩ 4 12) 0x2000000 0x80000).2 :=
    plInit_spec _ (by decide) ((plInit_ok_iff _ (by decide)).2 (by decide))
  obtain ⟨r, hrun, hfrees, a, ha, hout⟩ := exists_escape hpost.inv (i := 0) (by decide)
  have hinv := (poolRun_inv hpost.inv hrun).1
  exact ⟨r, hrun, hfrees, not_poolRefused hinv.layout (by decide) (chunk_class (i := 0) (by decide)).2,
    a, ha, hout⟩

end YohdaOS
