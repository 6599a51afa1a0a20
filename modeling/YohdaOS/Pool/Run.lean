import YohdaOS.Pool.InitSpec
import YohdaOS.Lib.Runs

/-!
# Runs of the pools

A run allocates within capacity, releases live chunks and writes into the bytes of live chunks, in
any order.
-/

namespace YohdaOS

open ByteMem Recycle

/-- The pools and the addresses of the live chunks of every class. -/
structure PoolRun where
  s : Mm
  live : ℕ → List ℕ

inductive PoolStep : PoolRun → PoolRun → Prop
  | alloc (r : PoolRun) (size : ℤ) (i : ℕ) (hpos : 1 ≤ size) (hclass : IsPoolClass size i)
      (hcap : (r.live i).length < r.s.cap i) :
      PoolStep r ⟨(plAlloc r.s size).2,
        Function.update r.live i ((plAlloc r.s size).1.val :: r.live i)⟩
  | free (r : PoolRun) (i a : ℕ) (hi : i < 7) (ha : a ∈ r.live i) :
      PoolStep r ⟨plFree r.s a, Function.update r.live i ((r.live i).erase a)⟩
  | write (r : PoolRun) (i a : ℕ) (hi : i < 7) (ha : a ∈ r.live i) (m : Mem)
      (hm : Frame a (a + 16 * 2 ^ i) r.s.mem m) : PoolStep r ⟨{ r.s with mem := m }, r.live⟩

/-- The pools of `r` describe its live chunks and lie where those of `s` lie. -/
def PoolRunInv (s : Mm) (r : PoolRun) : Prop := PoolInv r.s r.live ∧ PoolSame s r.s

theorem poolStep_inv {s : Mm} {r r' : PoolRun} (h : PoolRunInv s r) (hstep : PoolStep r r') :
    PoolRunInv s r' := by
  obtain ⟨hinv, hsame⟩ := h
  cases hstep with
  | alloc size i hpos hclass hcap =>
    obtain ⟨k, -, hptr, -, hinv', hsame', -⟩ := plAlloc_spec hinv hpos hclass hcap
    refine ⟨?_, hsame.trans hsame'⟩
    rw [hptr]
    exact hinv'
  | free i a hi ha =>
    obtain ⟨hinv', hsame', -⟩ := plFree_spec hinv hi ha
    exact ⟨hinv', hsame.trans hsame'⟩
  | write i a hi ha m hm =>
    exact ⟨hinv.write hi ha hm, hsame.trans (by constructor <;> intros <;> rfl)⟩

theorem poolRun_inv {s : Mm} {r : PoolRun} (h : PoolInv s fun _ => [])
    (hrun : Relation.ReflTransGen PoolStep ⟨s, fun _ => []⟩ r) : PoolRunInv s r :=
  Runs.invariant_of_run hrun ⟨h, PoolSame.refl s⟩ fun _ _ => poolStep_inv

/-- What a run from the state `s` of `pl_init` to `r` guarantees. -/
structure PoolRunOk (s : Mm) (r : PoolRun) : Prop where
  frees : ∀ i < 7, (r.s.pools i).frees + (r.live i).length =
    (s.pools i).size / ((s.pools i).chunk + POOL_HEADER_SIZE)
  alloc : ∀ size : ℤ, 1 ≤ size → size ≤ 1024 → ∃ i, IsPoolClass size i ∧
    (s.pools i).chunk = 16 * 2 ^ i ∧
    ((r.live i).length < (s.pools i).size / ((s.pools i).chunk + POOL_HEADER_SIZE) →
      ∃ a, (plAlloc r.s size).1 = .addr a ∧
        (s.pools i).base ≤ a ∧ a + 16 * 2 ^ i ≤ (s.pools i).base + (s.pools i).size ∧
        (∀ j < 7, ∀ b ∈ r.live j, ¬ Meets a (16 * 2 ^ i) b (16 * 2 ^ j)) ∧
        ∀ j < 7, ∀ k < s.cap j, ¬ Meets a (16 * 2 ^ i) (s.slot j k) POOL_HEADER_SIZE)

theorem poolRunInv_ok {s : Mm} {r : PoolRun} (h : PoolRunInv s r) : PoolRunOk s r := by
  obtain ⟨hinv, hsame⟩ := h
  have L := hinv.layout
  refine ⟨fun i hi => by rw [hinv.frees hi]; exact hsame.cap i, fun size hpos hle => ?_⟩
  obtain ⟨i, hclass⟩ := exists_isPoolClass hle
  have hi := hclass.lt
  refine ⟨i, hclass, by rw [← hsame.chunk]; exact L.chunk i hi, fun hcap => ?_⟩
  obtain ⟨k, hk, hptr, hnew, -⟩ := plAlloc_spec hinv hpos hclass (by rw [hsame.cap]; exact hcap)
  have hend := L.slot_end hi hk
  have hstr (j : ℕ) : stride j = 16 * 2 ^ j + 4 := rfl
  have hpow (j : ℕ) : 0 < 2 ^ j := by positivity
  have hlo : (r.s.pools i).base ≤ r.s.slot i k := Nat.le_add_right _ _
  rw [hsame.base, hsame.size] at hend
  rw [hsame.base] at hlo
  refine ⟨r.s.slot i k + 4, hptr, by omega, by rw [hstr] at hend; omega, fun j hj b hb hm => ?_,
    fun j hj l hl hm => ?_⟩
  · exact hinv.apart hi hk hnew hj hb hm
  · rw [← hsame.slot] at hm
    rw [← hsame.cap] at hl
    unfold Meets POOL_HEADER_SIZE at hm
    by_cases hne : i = j ∧ k = l
    · obtain ⟨rfl, rfl⟩ := hne
      omega
    · have := L.slot_apart hi hj hk hl hne
      rw [hstr, hstr] at this
      have := hpow i
      omega

/-- After `pl_init` every run within capacity hands out chunks that lie in the area of their class
and meet neither a live chunk nor a header, and keeps the counters right. -/
theorem poolRun_ok (s₀ : Mm) (base : ℕ) (size : ℤ) (hfit : base + size < 4294967296)
    (hok : 0 ≤ (plInit s₀ base size).1) (r : PoolRun)
    (hrun : Relation.ReflTransGen PoolStep ⟨(plInit s₀ base size).2, fun _ => []⟩ r) :
    PoolRunOk (plInit s₀ base size).2 r :=
  poolRunInv_ok (poolRun_inv (plInit_spec s₀ hfit hok).inv hrun)

/-! ## A small area -/

/-- `pl_init` on 8000 bytes: the classes of 16 and of 32 bytes get 128 chunks each. -/
def smallPool : Mm := (plInit (.boot ⟨fun _ => 0⟩ 4 12) 0x2000000 8000).2

/-- A chunk of 16 bytes is taken there. -/
def smallPoolFirst : Mm := (plAlloc smallPool 10).2

/-- And one of 32 bytes. -/
def smallPoolSecond : Mm := (plAlloc smallPoolFirst 20).2

/-- Something is written into the first one. -/
def smallPoolWritten : Mm := { smallPoolSecond with mem := store8 smallPoolSecond.mem 33554604 7 }

/-- The first one is given back. -/
def smallPoolFreed : Mm := plFree smallPoolWritten 33554604

/-- A chunk of 16 bytes is taken again. -/
def smallPoolAgain : Mm := (plAlloc smallPoolFreed 16).2

/-- Live chunks of the first two classes. -/
def firstLive (l₀ l₁ : List ℕ) : ℕ → List ℕ
  | 0 => l₀
  | 1 => l₁
  | _ => []

theorem firstLive_nil : firstLive [] [] = fun _ => [] := by
  funext j
  rcases j with _ | _ | j <;> rfl

theorem firstLive_zero (l l₀ l₁ : List ℕ) (j : ℕ) :
    firstLive l l₁ j = if j = 0 then l else firstLive l₀ l₁ j := by
  rcases j with _ | _ | j <;> rfl

theorem firstLive_one (l l₀ l₁ : List ℕ) (j : ℕ) :
    firstLive l₀ l j = if j = 1 then l else firstLive l₀ l₁ j := by
  rcases j with _ | _ | j <;> rfl

theorem poolStep_alloc {s s' : Mm} {live live' : ℕ → List ℕ} (size : ℤ) (i a : ℕ) (hpos : 1 ≤ size)
    (hclass : IsPoolClass size i) (hcap : (live i).length < s.cap i) (hs : (plAlloc s size).2 = s')
    (ha : (plAlloc s size).1.val = a) (hlive : ∀ j, live' j = if j = i then a :: live i else live j) :
    PoolStep ⟨s, live⟩ ⟨s', live'⟩ := by
  subst hs ha
  obtain rfl : live' = Function.update live i ((plAlloc s size).1.val :: live i) := by
    funext j
    rw [hlive, Function.update_apply]
  exact .alloc ⟨s, live⟩ size i hpos hclass hcap

theorem poolStep_write {s s' : Mm} {live : ℕ → List ℕ} (i a v : ℕ) (hi : i < 7) (ha : a ∈ live i)
    (hs : { s with mem := store8 s.mem a v } = s') : PoolStep ⟨s, live⟩ ⟨s', live⟩ := by
  subst hs
  have hpow : 1 ≤ 2 ^ i := Nat.one_le_two_pow
  exact .write ⟨s, live⟩ i a hi ha _ ((frame_store8 s.mem a v).mono le_rfl (by omega))

theorem poolStep_free {s s' : Mm} {live live' : ℕ → List ℕ} (i a : ℕ) (hi : i < 7) (ha : a ∈ live i)
    (hs : plFree s a = s') (hlive : ∀ j, live' j = if j = i then (live i).erase a else live j) :
    PoolStep ⟨s, live⟩ ⟨s', live'⟩ := by
  subst hs
  obtain rfl : live' = Function.update live i ((live i).erase a) := by
    funext j
    rw [hlive, Function.update_apply]
  exact .free ⟨s, live⟩ i a hi ha

/-- A chunk of each class is taken, the first is written to, given back and taken again. -/
theorem poolRun_ok_small :
    PoolRunOk smallPool ⟨smallPoolAgain, firstLive [33554604] [33557164]⟩ := by
  have h₁ : PoolStep ⟨smallPool, firstLive [] []⟩ ⟨smallPoolFirst, firstLive [33554604] []⟩ :=
    poolStep_alloc 10 0 33554604 (by decide) ⟨by decide, by decide, by simp⟩ (by decide +kernel) rfl
      (by decide +kernel) (firstLive_zero _ _ _)
  have h₂ : PoolStep ⟨smallPoolFirst, firstLive [33554604] []⟩
      ⟨smallPoolSecond, firstLive [33554604] [33557164]⟩ :=
    poolStep_alloc 20 1 33557164 (by decide) ⟨by decide, by decide, by decide⟩ (by decide +kernel) rfl
      (by decide +kernel) (firstLive_one _ _ _)
  have h₃ : PoolStep ⟨smallPoolSecond, firstLive [33554604] [33557164]⟩
      ⟨smallPoolWritten, firstLive [33554604] [33557164]⟩ :=
    poolStep_write 0 33554604 7 (by decide) List.mem_cons_self rfl
  have h₄ : PoolStep ⟨smallPoolWritten, firstLive [33554604] [33557164]⟩
      ⟨smallPoolFreed, firstLive [] [33557164]⟩ :=
    poolStep_free 0 33554604 (by decide) List.mem_cons_self rfl (firstLive_zero _ _ _)
  have h₅ : PoolStep ⟨smallPoolFreed, firstLive [] [33557164]⟩
      ⟨smallPoolAgain, firstLive [33554604] [33557164]⟩ :=
    poolStep_alloc 16 0 33554604 (by decide) ⟨by decide, by decide, by simp⟩ (by decide +kernel) rfl
      (by decide +kernel) (firstLive_zero _ _ _)
  rw [firstLive_nil] at h₁
  exact poolRun_ok (.boot ⟨fun _ => 0⟩ 4 12) 0x2000000 8000 (by decide)
    ((plInit_ok_iff _ (by decide)).2 (by decide)) _
    (((((Relation.ReflTransGen.refl.tail h₁).tail h₂).tail h₃).tail h₄).tail h₅)

end YohdaOS
