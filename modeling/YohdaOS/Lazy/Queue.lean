import Mathlib.Tactic
import YohdaOS.Lib.Runs

/-!
# The lazy pages as queues

The lazy layer of mm/buddy.c where the two lists are FIFO queues of pages and every request to the
buddy is answered with a block that is not held.  A block that holds `struct lazy_page` descriptors
is never given back.  `pages_refine_queue` says that the 32-bit code is one of these.
-/

namespace YohdaOS

/-- `struct lazy_buddy` with the pages on its lists, and the blocks that hold descriptors. -/
structure LazyQueue where
  frees : List ℕ
  inuses : List ℕ
  fnum : ℤ
  unum : ℤ
  descs : List ℕ

namespace LazyQueue

/-- After `_bud_init`. -/
def empty : LazyQueue := ⟨[], [], 0, 0, []⟩

/-- The blocks of order 0 that the layer holds. -/
def blocks (q : LazyQueue) : List ℕ := q.frees ++ q.inuses ++ q.descs

/-- One round of the loop of `bud_lazy_alloc`. -/
def add (q : LazyQueue) (page : ℕ) : LazyQueue :=
  { q with frees := q.frees ++ [page], fnum := q.fnum + 1 }

/-- The refill of `bud_lazy_alloc`, where the buddy answers with the block `desc` and then with
`pages`. -/
def refill (desc : ℕ) (pages : List ℕ) (q : LazyQueue) : LazyQueue :=
  pages.foldl add { q with descs := desc :: q.descs }

/-- The second half of `bud_lazy_alloc`. -/
def take (q : LazyQueue) : Option ℕ × LazyQueue :=
  match q.frees with
  | [] => (none, q)
  | page :: frees =>
    (some page, { q with
      frees := frees, inuses := q.inuses ++ [page], fnum := q.fnum - 1, unum := q.unum + 1 })

/-- `bud_lazy_alloc` -/
def lazyAlloc (desc : ℕ) (pages : List ℕ) (q : LazyQueue) : Option ℕ × LazyQueue :=
  if q.fnum = 0 then (q.refill desc pages).take else q.take

/-- The loop of `bud_lazy_free` that gives pages back. -/
def release : ℕ → LazyQueue → LazyQueue
  | 0, q => q
  | batch + 1, q =>
    match q.frees with
    | [] => q
    | _ :: frees => release batch { q with frees := frees, fnum := q.fnum - 1 }

/-- `bud_lazy_free`; `lazy.wmk` is `lazy.batch * 6`. -/
def lazyFree (batch page : ℕ) (q : LazyQueue) : LazyQueue :=
  if q.unum = 0 then q
  else if page ∉ q.inuses then q
  else
    let q : LazyQueue := { q with
      inuses := q.inuses.erase page, frees := q.frees ++ [page],
      fnum := q.fnum + 1, unum := q.unum - 1 }
    if q.fnum > batch * 6 then q.release batch else q

inductive Step (batch : ℕ) : LazyQueue → LazyQueue → Prop
  | alloc (q : LazyQueue) (desc : ℕ) (pages : List ℕ) (hlen : pages.length = batch)
      (hnew : (desc :: pages).Nodup ∧ ∀ b ∈ desc :: pages, b ∉ q.blocks) :
      Step batch q (q.lazyAlloc desc pages).2
  | free (q : LazyQueue) (page : ℕ) (hp : page ∈ q.inuses) : Step batch q (q.lazyFree batch page)

/-- A step after which at most `K` pages are outstanding. -/
def Within (batch K : ℕ) (q q' : LazyQueue) : Prop := Step batch q q' ∧ q'.inuses.length ≤ K

/-! ## What the operations do -/

variable {q q' : LazyQueue} {batch K page desc : ℕ} {pages : List ℕ}

theorem foldl_add (pages : List ℕ) (q : LazyQueue) : pages.foldl add q =
    { q with frees := q.frees ++ pages, fnum := q.fnum + pages.length } := by
  induction pages generalizing q with
  | nil => simp
  | cons page pages ih =>
    rw [List.foldl_cons, ih]
    simp [add]
    ring

theorem refill_eq (desc : ℕ) (pages : List ℕ) (q : LazyQueue) : q.refill desc pages =
    { q with frees := q.frees ++ pages, fnum := q.fnum + pages.length, descs := desc :: q.descs } :=
  foldl_add _ _

/-- The counters are the lengths of the queues. -/
structure Counts (q : LazyQueue) : Prop where
  fnum : q.fnum = q.frees.length
  unum : q.unum = q.inuses.length

theorem release_eq (n : ℕ) (hn : n ≤ q.frees.length) :
    q.release n = { q with frees := q.frees.drop n, fnum := q.fnum - n } := by
  induction n generalizing q with
  | zero => simp [release]
  | succ n ih =>
    cases hq : q.frees with
    | nil =>
      rw [hq] at hn
      cases hn
    | cons page frees =>
      rw [hq] at hn
      rw [release, hq]
      simp only [ih (q := { q with frees, fnum := q.fnum - 1 }) (Nat.le_of_succ_le_succ hn),
        List.drop_succ_cons]
      congr 1
      push_cast
      ring

theorem Counts.take (h : q.Counts) (hne : q.frees ≠ []) : q.take.2.Counts ∧
    q.take.2.frees.length + 1 = q.frees.length ∧
    q.take.2.inuses.length = q.inuses.length + 1 ∧ q.take.2.descs = q.descs := by
  obtain ⟨hf, hu⟩ := h
  unfold LazyQueue.take
  cases hq : q.frees with
  | nil => exact absurd hq hne
  | cons page frees =>
    rw [hq] at hf
    refine ⟨⟨?_, ?_⟩, ?_, ?_, rfl⟩ <;> simp [hf, hu]

theorem Counts.release (h : q.Counts) (n : ℕ) (hn : n ≤ q.frees.length) :
    (q.release n).Counts ∧ (q.release n).frees.length + n = q.frees.length ∧
    (q.release n).inuses = q.inuses ∧ (q.release n).descs = q.descs := by
  have hf := h.fnum
  rw [release_eq n hn]
  refine ⟨⟨?_, h.unum⟩, ?_, rfl, rfl⟩
  · change q.fnum - n = (q.frees.drop n).length
    rw [List.length_drop]
    omega
  · rw [List.length_drop]
    omega

/-- An allocation that needs no refill. -/
theorem Counts.alloc_of_ne (h : q.Counts) (hne : q.frees ≠ []) :
    q.lazyAlloc desc pages = q.take := by
  have hpos := List.length_pos_of_ne_nil hne
  rw [lazyAlloc, if_neg]
  rw [h.fnum]
  omega

/-- An allocation that refills. -/
theorem Counts.alloc_of_eq (h : q.Counts) (hnil : q.frees = []) :
    q.lazyAlloc desc pages = (q.refill desc pages).take := by
  rw [lazyAlloc, if_pos]
  rw [h.fnum, hnil]
  rfl

theorem Counts.refill (h : q.Counts) : (q.refill desc pages).Counts := by
  rw [refill_eq]
  exact ⟨by simp [h.fnum], h.unum⟩

/-- A release, up to the pages that are given back. -/
theorem Counts.free (h : q.Counts) (hp : page ∈ q.inuses) (hle : q.frees.length ≤ batch * 6)
    (hb : 1 ≤ batch) : (q.lazyFree batch page).Counts ∧
    (q.lazyFree batch page).inuses.length + 1 = q.inuses.length ∧
    (q.lazyFree batch page).descs = q.descs ∧ (q.lazyFree batch page).frees.length ≤ batch * 6 ∧
    (q.frees.length < batch * 6 → (q.lazyFree batch page).frees.length = q.frees.length + 1) := by
  have hpos := List.length_pos_of_mem hp
  have hlength := h.unum
  have hunum : ¬q.unum = 0 := by omega
  have hin : ¬page ∉ q.inuses := not_not.2 hp
  have herase := List.length_erase_of_mem hp
  have hmoved : Counts { q with
      inuses := q.inuses.erase page, frees := q.frees ++ [page],
      fnum := q.fnum + 1, unum := q.unum - 1 } := by
    constructor
    · simp [h.fnum]
    · dsimp only
      omega
  rw [lazyFree, if_neg hunum, if_neg hin]
  dsimp only
  split_ifs with hwmk
  · rw [h.fnum] at hwmk
    have hlen : (q.frees ++ [page]).length = q.frees.length + 1 := by simp
    obtain ⟨hc, hrel, hinuses, hd⟩ := hmoved.release batch (by simp only [hlen]; omega)
    rw [hinuses]
    dsimp only
    simp only [hlen] at hrel
    exact ⟨hc, by omega, hd, by omega, by omega⟩
  · rw [h.fnum] at hwmk
    refine ⟨hmoved, by simp only; omega, rfl, ?_, fun _ => by simp⟩
    simp
    omega

/-! ### The pages in use -/

/-- The page that an allocation returns is in use from then on. -/
theorem inuses_take (h : q.take.1 = some page) : q.take.2.inuses = q.inuses ++ [page] := by
  unfold LazyQueue.take at h ⊢
  cases hq : q.frees with
  | nil =>
    rw [hq] at h
    cases h
  | cons x frees =>
    rw [hq] at h
    obtain rfl := Option.some.inj h
    rfl

theorem inuses_lazyAlloc (h : (q.lazyAlloc desc pages).1 = some page) :
    (q.lazyAlloc desc pages).2.inuses = q.inuses ++ [page] := by
  unfold lazyAlloc at h ⊢
  split at h
  · rename_i h0
    rw [if_pos h0, inuses_take h, refill_eq]
  · rename_i h0
    rw [if_neg h0, inuses_take h]

theorem inuses_release (n : ℕ) (q : LazyQueue) : (q.release n).inuses = q.inuses := by
  induction n generalizing q with
  | zero => rfl
  | succ n ih =>
    rw [release]
    split
    · rfl
    · rw [ih]

/-- The page of a release is no longer in use. -/
theorem inuses_lazyFree (h : q.Counts) (hp : page ∈ q.inuses) :
    (q.lazyFree batch page).inuses = q.inuses.erase page := by
  have hpos := List.length_pos_of_mem hp
  have hunum : ¬q.unum = 0 := by
    rw [h.unum]
    omega
  rw [lazyFree, if_neg hunum, if_neg (not_not.2 hp)]
  dsimp only
  split_ifs
  · rw [inuses_release]
  · rfl

/-! ## Runs with at most `K` pages outstanding -/

theorem Counts.alloc (h : q.Counts) (hlen : pages.length = batch) (hb : 1 ≤ batch) (desc : ℕ) :
    (q.lazyAlloc desc pages).2.Counts ∧
    (q.lazyAlloc desc pages).2.inuses.length = q.inuses.length + 1 ∧
    ((q.lazyAlloc desc pages).2.descs.length = q.descs.length ∧
      (q.lazyAlloc desc pages).2.frees.length + 1 = q.frees.length ∨
    (q.lazyAlloc desc pages).2.descs.length = q.descs.length + 1 ∧
      q.frees = [] ∧ (q.lazyAlloc desc pages).2.frees.length + 1 = batch) := by
  by_cases hnil : q.frees = []
  · have hfrees : (q.refill desc pages).frees = pages := by
      rw [refill_eq, hnil]
      rfl
    have hne : (q.refill desc pages).frees ≠ [] := by
      rw [hfrees]
      apply List.ne_nil_of_length_pos
      omega
    obtain ⟨hc, hf, hi, hd⟩ := h.refill.take hne
    rw [h.alloc_of_eq hnil, hd, hi]
    rw [hfrees, hlen] at hf
    rw [refill_eq]
    exact ⟨refill_eq desc pages q ▸ hc, rfl, Or.inr ⟨rfl, hnil, refill_eq desc pages q ▸ hf⟩⟩
  · obtain ⟨hc, hf, hi, hd⟩ := h.take hnil
    rw [h.alloc_of_ne hnil, hd]
    exact ⟨hc, hi, Or.inl ⟨rfl, hf⟩⟩

/-- What every run keeps. -/
structure Kept (batch : ℕ) (q : LazyQueue) : Prop extends Counts q where
  room : q.frees.length ≤ batch * 6

theorem Kept.step (hb : 1 ≤ batch) (h : q.Kept batch) (hstep : Step batch q q') :
    q'.Kept batch := by
  cases hstep with
  | alloc desc pages hlen hnew =>
    obtain ⟨hc, -, hcase⟩ := h.toCounts.alloc hlen hb desc
    have hroom := h.room
    exact ⟨hc, by omega⟩
  | free page hp =>
    obtain ⟨hc, -, -, hroom, -⟩ := h.toCounts.free hp h.room hb
    exact ⟨hc, hroom⟩

theorem Kept.run (hb : 1 ≤ batch) (h : q.Kept batch)
    (hrun : Relation.ReflTransGen (Within batch K) q q') : q'.Kept batch :=
  Runs.invariant_of_run hrun h fun _ _ h hstep => h.step hb hstep.1

/-- Up to the watermark no page is given back, so every refill adds to the pages. -/
structure Few (batch : ℕ) (q : LazyQueue) : Prop extends Kept batch q where
  total : q.frees.length + q.inuses.length = batch * q.descs.length
  descs : q.descs.length ≤ 6

theorem Few.step (hb : 1 ≤ batch) (hK : K ≤ batch * 6) (h : q.Few batch)
    (hstep : Within batch K q q') : q'.Few batch := by
  have hkept := h.toKept.step hb hstep.1
  have htotal := h.total
  have hdescs := h.descs
  have hmul := Nat.mul_le_mul_left batch hdescs
  obtain ⟨hstep, hout⟩ := hstep
  cases hstep with
  | alloc desc pages hlen hnew =>
    obtain ⟨-, hi, ⟨hd, hf⟩ | ⟨hd, hnil, hf⟩⟩ := h.toCounts.alloc hlen hb desc
    · refine ⟨hkept, ?_, ?_⟩
      · rw [hd]
        omega
      · omega
    · rw [hnil, List.length_nil, Nat.zero_add] at htotal
      have hlt : batch * q.descs.length < batch * 6 := by omega
      have hdlt : q.descs.length < 6 := Nat.lt_of_mul_lt_mul_left hlt
      refine ⟨hkept, ?_, ?_⟩
      · rw [hd, Nat.mul_add]
        omega
      · omega
  | free page hp =>
    obtain ⟨-, hi, hd, -, hf⟩ := h.toCounts.free hp h.room hb
    have hpos := List.length_pos_of_mem hp
    refine ⟨hkept, ?_, ?_⟩
    · rw [hd, hf (by omega)]
      omega
    · rw [hd]
      exact hdescs

/-! ## Runs that leak -/

/-- Blocks that the layer does not hold. -/
theorem exists_new (q : LazyQueue) (batch : ℕ) : ∃ desc pages, pages.length = batch ∧
    (desc :: pages).Nodup ∧ ∀ b ∈ desc :: pages, b ∉ q.blocks := by
  have hbound (b : ℕ) (hb : b ∈ q.blocks) : b ≤ q.blocks.sum := List.le_sum_of_mem hb
  refine ⟨q.blocks.sum + 1, List.range' (q.blocks.sum + 2) batch, List.length_range', ?_, ?_⟩
  · have hnodup : (List.range' (q.blocks.sum + 1) (batch + 1)).Nodup := List.nodup_range'
    rwa [List.range'_succ] at hnodup
  · intro b hb hmem
    have hle := hbound b hmem
    have hge : q.blocks.sum + 1 ≤ b := by
      rcases List.mem_cons.1 hb with rfl | hb
      · exact le_rfl
      · rw [List.mem_range'_1] at hb
        omega
    omega

/-- The users take `n` more pages. -/
theorem Kept.take_pages (hb : 1 ≤ batch) (h : q.Kept batch) (n : ℕ)
    (hn : q.inuses.length + n ≤ K) :
    ∃ q', Relation.ReflTransGen (Within batch K) q q' ∧
      q'.inuses.length = q.inuses.length + n ∧
      (q'.descs.length = q.descs.length ∧ q'.frees.length + n = q.frees.length ∨
        q.descs.length < q'.descs.length) := by
  induction n generalizing q with
  | zero => exact ⟨q, .refl, rfl, Or.inl ⟨rfl, rfl⟩⟩
  | succ n ih =>
    obtain ⟨desc, pages, hlen, hnew⟩ := exists_new q batch
    have hstep : Step batch q (q.lazyAlloc desc pages).2 := .alloc q desc pages hlen hnew
    obtain ⟨-, hi, hcase⟩ := h.toCounts.alloc hlen hb desc
    obtain ⟨q', hrun, hin, hrest⟩ := ih (h.step hb hstep) (by omega)
    refine ⟨q', .head ⟨hstep, by omega⟩ hrun, by omega, ?_⟩
    omega

/-- The users give all pages back. -/
theorem Kept.free_pages (hb : 1 ≤ batch) (h : q.Kept batch) (hK : q.inuses.length ≤ K) :
    ∃ q', Relation.ReflTransGen (Within batch K) q q' ∧ q'.inuses = [] ∧
      q'.descs = q.descs := by
  generalize hn : q.inuses.length = n at hK
  induction n generalizing q with
  | zero => exact ⟨q, .refl, List.eq_nil_of_length_eq_zero hn, rfl⟩
  | succ n ih =>
    obtain ⟨page, hp⟩ := List.exists_mem_of_length_pos (show 0 < q.inuses.length by omega)
    have hstep : Step batch q (q.lazyFree batch page) := .free q page hp
    obtain ⟨-, hi, hd, -, -⟩ := h.toCounts.free hp h.room hb
    obtain ⟨q', hrun, hnil, hdescs⟩ := ih (h.step hb hstep) (by omega) (by omega)
    exact ⟨q', .head ⟨hstep, by omega⟩ hrun, hnil, hdescs.trans hd⟩

/-- A round of taking one page more than the watermark and giving all back needs a new block of
descriptors. -/
theorem Kept.round (hb : 1 ≤ batch) (hK : batch * 6 < K) (h : q.Kept batch)
    (hnil : q.inuses = []) :
    ∃ q', Relation.ReflTransGen (Within batch K) q q' ∧ q'.inuses = [] ∧
      q.descs.length < q'.descs.length := by
  have hzero : q.inuses.length = 0 := by rw [hnil]; rfl
  obtain ⟨q₁, hrun₁, hin, hcase⟩ := h.take_pages hb (batch * 6 + 1) (K := K) (by omega)
  have hroom := h.room
  have hkept := h.run hb hrun₁
  obtain ⟨q₂, hrun₂, hnil₂, hdescs⟩ := hkept.free_pages hb (K := K) (by omega)
  refine ⟨q₂, hrun₁.trans hrun₂, hnil₂, ?_⟩
  rw [hdescs]
  omega

theorem kept_empty (batch : ℕ) : empty.Kept batch := ⟨⟨rfl, rfl⟩, Nat.zero_le _⟩

theorem exists_descs (hb : 1 ≤ batch) (hK : batch * 6 < K) (n : ℕ) :
    ∃ q, Relation.ReflTransGen (Within batch K) empty q ∧ q.inuses = [] ∧ n ≤ q.descs.length := by
  induction n with
  | zero => exact ⟨empty, .refl, rfl, le_rfl⟩
  | succ n ih =>
    obtain ⟨q, hrun, hnil, hle⟩ := ih
    obtain ⟨q', hround, hnil', hlt⟩ := ((kept_empty batch).run hb hrun).round hb hK hnil
    exact ⟨q', hrun.trans hround, hnil', by omega⟩

theorem not_bounded (hb : 1 ≤ batch) (hK : batch * 6 < K) :
    ¬∃ B, ∀ q, Relation.ReflTransGen (Within batch K) empty q → q.blocks.length ≤ B := by
  rintro ⟨B, hall⟩
  obtain ⟨q, hrun, -, hle⟩ := exists_descs hb hK (B + 1)
  have hblocks := hall q hrun
  simp only [blocks, List.length_append] at hblocks
  omega

/-- Up to the watermark the layer holds the pages of six batches at most, with their descriptors. -/
theorem blocks_length_le (hb : 1 ≤ batch) (hK : K ≤ batch * 6)
    (hrun : Relation.ReflTransGen (Within batch K) empty q) : q.blocks.length ≤ batch * 6 + 6 := by
  have hfew : q.Few batch := Runs.invariant_of_run hrun ⟨kept_empty batch, rfl, Nat.zero_le _⟩
    fun _ _ h hstep => h.step hb hK hstep
  have htotal := hfew.total
  have hdescs := hfew.descs
  have hmul := Nat.mul_le_mul_left batch hdescs
  simp only [blocks, List.length_append]
  omega

/-- The blocks that the layer holds are bounded over all runs with at most `K` pages outstanding
exactly when `K` is not above the watermark. -/
theorem leak_free_iff (batch : ℕ) (hb : 1 ≤ batch) (K : ℕ) :
    (∃ B, ∀ q, Relation.ReflTransGen (Within batch K) empty q → q.blocks.length ≤ B) ↔
      K ≤ batch * 6 := by
  constructor
  · intro h
    by_contra hK
    exact not_bounded hb (not_le.1 hK) h
  · exact fun hK => ⟨batch * 6 + 6, fun q hrun => blocks_length_le hb hK hrun⟩

/-- The batch of every heap of 64 pages and more. -/
theorem leak_free_iff_main :
    ∃ B, ∀ q, Relation.ReflTransGen (Within 31 100) empty q → q.blocks.length ≤ B :=
  (leak_free_iff 31 (by decide) 100).2 (by decide)

/-- With 187 pages outstanding now and then, each round loses a block. -/
theorem leak_free_iff_fails : ¬∀ K, ∃ B, ∀ q,
    Relation.ReflTransGen (Within 31 K) empty q → q.blocks.length ≤ B :=
  fun hall => not_bounded (by decide) (by decide) (hall 187)

end LazyQueue

end YohdaOS
