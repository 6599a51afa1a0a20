import YohdaOS.Buddy.Reach
import YohdaOS.Mmi.Core

/-!
# mmi.c over buddy64.c

`mm/buddy64.c` is the text of the other buddies with heap sizes of type `s64`, compiled with 64-bit
pointers.  The functions that have neither in them are those of the buddy core; the others follow
here.  `yalloc` takes an `s64` and hands it to functions that take an `int`.
-/

namespace YohdaOS.Wide

open ByteMem BinaryBlocks

def sizeofLazyPage : ℕ := 24

def sizeofBitmaps : ℕ := 32

def POOL_HEADER_SIZE : ℕ := 8

/-! ## Allocation -/

/-- The sum `bm.heap_base + bm.heap_size` is an `s64` here. -/
def budEncode (s : Mm) (chunk ost dep : ℕ) : Ptr × Mm :=
  let addr := u32 (s.bm.heapBase + u32 (chunk * ost))
  let hdr := s.bm.hdrBase + u32 (chunk * ost) / s.bm.ll
  let s := { s with mem := store8 s.mem hdr dep }
  if u32 (addr + chunk) > s.bm.heapBase + s.bm.heapSize then (.code 0, s) else (.addr addr, s)

def _budAlloc (s : Mm) (size : ℤ) : Ptr × Mm :=
  if size < 1 then (.code 0, s)
  else
    let chunk := budRndup s size
    if chunk < 0 then (.code 0, s)
    else
      let ord := budGetOrd s (toU32 chunk)
      if ord < 0 then (.code 0, s)
      else
        let r := budFindFree s ord
        -- a negative offset is only reported: the call goes on with it
        let r := budEncode r.2 (toU32 chunk) (toU32 r.1) (u8 (toU32 ord))
        if r.1.val = 0 then (.code 0, r.2) else r

/-- The loop of `bud_lazy_alloc` over the pages that remain, from `pages[i]` on; it returns whether
it failed. -/
def budLazyRefill (pages : ℕ) : ℕ → ℕ → Mm → Bool × Mm
  | 0, _, s => (false, s)
  | fuel + 1, i, s =>
    let page := pages + sizeofLazyPage * i
    let r := _budAlloc s MM_PAGE_SIZE
    let s := { r.2 with pageAddr := Function.update r.2.pageAddr page r.1.val }
    if isMemErr s r.1.val then (true, s)
    else
      let s := { s with
        links := (listOps.add s.links s.lazy.frees page).2
        lazy := { s.lazy with fnum := s.lazy.fnum + 1 } }
      budLazyRefill pages fuel (i + 1) s

def budLazyAlloc (s : Mm) : Ptr × Mm :=
  if s.lazy.fnum = 0 then
    let batch := s.lazy.batch
    let r := _budAlloc s (toInt (sizeofLazyPage * batch))
    let s := r.2
    if isMemErr s r.1.val then (.code 0, s)
    else
      let r := budLazyRefill r.1.val batch.toNat 0 s
      if r.1 then (.code 0, r.2) else budLazyTake listOps r.2
  else budLazyTake listOps s

def budAlloc (s : Mm) (size : ℤ) : Ptr × Mm :=
  if size < 1 then (.code (-EINVAL), s)
  else
    let r := if size > MM_PAGE_SIZE then _budAlloc s size else budLazyAlloc s
    if r.1.val = 0 then (.code (-4), r.2) else r

/-- The word in front of a chunk goes through an `int` on its way to the pointer `head`. -/
def plAlloc (s : Mm) (size : ℤ) : Ptr × Mm :=
  if size < 1 then (.code (-1), s)
  else
    let chunk := plGetChunk s size
    if chunk < 0 then (.code chunk, s)
    else
      let id := poolGetOrd s (toU32 chunk)
      if id < 0 then (.code id, s)
      else
        let id := id.toNat
        let p := s.pools id
        let next := toInt (load32 s.mem p.head)
        let head := if next = 0 then p.head + (p.chunk + POOL_HEADER_SIZE)
          else (next % 18446744073709551616).toNat
        (.addr (p.head + POOL_HEADER_SIZE), { s with
          pools := Function.update s.pools id { p with head, frees := u32 (p.frees + 4294967295) } })

/-- `mm_alloc` takes an `int`. -/
def yalloc (s : Mm) (size : ℤ) : Ptr × Mm :=
  if size < 1 then (.code (-1), s)
  else
    let r := if size ≥ mmGetPriLlc then budAlloc s (toInt size) else plAlloc s (toInt size)
    if r.1.val = 0 then (.code (-8), r.2) else r

/-! ## Setting up -/

/-- The loop of `bud_get_real_size` over the orders that remain: the bytes of each bitmap, a `u32`,
leave `size`. -/
def budGetRealSizeLoop (bitmapSize : ℕ) (_size : ℤ) : ℕ → ℤ → ℤ → ℤ
  | 0, _, size => size
  | dep + 1, ll, size =>
    let num := toU32 ((_size / ll + (bitmapSize - 1)) / bitmapSize * BITMAP_DEF_BYTE)
    budGetRealSizeLoop bitmapSize _size dep (toInt (ll * 2)) (size - num)

def budGetRealSize (bmLl bitmapSize : ℕ) (_size _ll : ℤ) : ℤ :=
  if _ll < 1 ∨ _size < 1 then -1
  else
    let dep := budGetDep _size bmLl
    if dep < 0 then -4
    else
      let size := _size - sizeofBitmaps * dep
      let size := budGetRealSizeLoop bitmapSize _size dep.toNat _ll size
      let size := size - _size / bmLl
      if size < 0 then -8 else size

/-- One round of the loop of `_bud_init`: `num[i]` and `bud[i].num` are `u32`, and so are the
products with them; `memset` takes an `int`. -/
def budInitOrder (s : Mm) (dataSize ll i bmpBase : ℕ) : Mm :=
  let bit := s.bm.bitmapSize
  let num := u32 ((dataSize / ll + (bit - 1)) / bit)
  let bmp : Bitmap := ⟨bmpBase, bit, num⟩
  let mem := fill s.mem bmpBase 0 (toInt (u32 (num * (bit / 8)))).toNat
  let j := dataSize / ll % bit
  { s with
    bud := Function.update s.bud i ⟨u32 (dataSize / ll), u32 (dataSize / ll), bmp⟩
    mem := (List.range (bit - j)).foldl
      (fun m d => (bitmapSet m bmp (u32 (u32 (num + 4294967295) * bit + (j + d))) true).2) mem }

/-- The loop of `_bud_init` over the orders that remain, from order `i` on. -/
def budInitLoop (dataSize : ℕ) : ℕ → ℕ → ℕ → ℕ → ℕ → Mm → ℕ × Mm
  | 0, _, _, _, size, s => (size, s)
  | dep + 1, i, ll, bmpBase, size, s =>
    let s := budInitOrder s dataSize ll i bmpBase
    let bytes := u32 ((s.bud i).bmp.size * ((s.bud i).bmp.bit / 8))
    budInitLoop dataSize dep (i + 1) (u32 (ll * 2)) (bmpBase + bytes) (size + bytes) s

def _budInit (s : Mm) (base : ℕ) (heapSize llc : ℤ) : ℤ × Mm :=
  if base = 0 then (-1, s)
  else if heapSize < MM_HEAP_MIN_SIZE then (-4, s)
  else if llc < 1 then (-8, s)
  else
    let heapMetaBase := u32 base
    let bm := { s.bm with
      orgSize := heapSize, heapMetaBase, ll := toU32 llc, bitmapSize := BITMAP_DEF_BIT }
    let dataSize := budGetRealSize bm.ll bm.bitmapSize heapSize bm.ll
    if dataSize < 0 then (-4, { s with bm })
    else
      let dataSize := dataSize.toNat
      let dep := toU32 (budGetDep dataSize bm.ll)
      let ul := u32 (bm.ll * power 2 (toInt (u32 (dep + 4294967295))))
      let bm := { bm with heapSize := dataSize, dep, ul }
      let r := budInitLoop dataSize dep 0 bm.ll (heapMetaBase + sizeofBitmaps * dep) 0 { s with bm }
      let s := r.2
      let hdrBase := (s.bud 0).bmp.base + r.1
      let hdrSize := u32 (dataSize / bm.ll)
      let heapBase := u32 (hdrBase + hdrSize)
      let heapMetaSize : ℤ := toU32 ((heapBase : ℤ) - heapMetaBase)
      let rmdSize := heapSize - (dataSize + heapMetaSize)
      let batch := min (toInt (dataSize / MM_PAGE_SIZE - 1)) 31
      (toInt rmdSize, { s with
        bm := { bm with hdrBase, hdrSize, heapBase, heapMetaSize, rmdSize }
        lazy := { s.lazy with batch, wmk := batch * 6 }
        links := listInitHead (listInitHead s.links s.lazy.frees) s.lazy.inuses })

/-! ## What is reserved -/

/-- The length of the block a call takes for `size`: the chunk of its class, or a page of the lazy
layer, whose blocks are those of `_bud_alloc(MM_PAGE_SIZE)`. -/
def reserved (s : Mm) (size : ℤ) : ℤ :=
  if size ≥ mmGetPriLlc then
    if toInt size > MM_PAGE_SIZE then budRndup s (toInt size) else MM_PAGE_SIZE
  else plGetChunk s (toInt size)

/-- A block of the buddy heap or a chunk of a pool starts at the address. -/
def IsBlock (s : Mm) (p : ℕ) : Prop :=
  (∃ b : Block, b.ord < s.bm.dep ∧ b.idx < (s.bud b.ord).num ∧ p = s.blockAddr b) ∨
  ∃ i < s.pmm.num.toNat, ∃ k,
    (k + 1) * ((s.pools i).chunk + POOL_HEADER_SIZE) ≤ (s.pools i).size ∧
    p = (s.pools i).base + k * ((s.pools i).chunk + POOL_HEADER_SIZE) + POOL_HEADER_SIZE

/-- The limits that `bud_init` sets, and that no call changes; a chunk is a `u32`. -/
structure Limits (s : Mm) : Prop where
  ll : s.bm.ll = 2048
  dep_le : s.bm.dep ≤ 11
  chunk_lt : (s.pools 0).chunk < 4294967296

/-- A loop over chunks that answers with a chunk answers with one that is large enough. -/
theorem le_chunkLoop {size : ℤ} (n : ℕ) {block : ℕ} (hblock : block < 4294967296)
    (h : 0 ≤ chunkLoop size n block) : size ≤ chunkLoop size n block := by
  induction n generalizing block with
  | zero => exact absurd h (show ¬ (0 : ℤ) ≤ -1 by decide)
  | succ n ih =>
    rw [chunkLoop] at h ⊢
    split_ifs at h ⊢ with hle
    · have : toInt (block : ℤ) = block := by
        unfold toInt at h ⊢
        omega
      omega
    · exact ih (Nat.mod_lt _ (by decide)) h

theorem chunkLoop_lt (size : ℤ) (n block : ℕ) : chunkLoop size n block < 2147483648 := by
  induction n generalizing block with
  | zero => exact show (-1 : ℤ) < 2147483648 by decide
  | succ n ih =>
    rw [chunkLoop]
    split_ifs
    · exact toInt_lt _
    · exact ih _

theorem le_budRndup {s : Mm} (hs : Limits s) {size : ℤ} (h : 0 ≤ budRndup s size) :
    size ≤ budRndup s size := by
  have hll := hs.ll
  rw [budRndup] at h ⊢
  split_ifs at h ⊢
  · exact absurd h (by decide)
  · exact le_chunkLoop _ (by omega) h

theorem le_plGetChunk {s : Mm} (hs : Limits s) {size : ℤ} (h : 0 ≤ plGetChunk s size) :
    size ≤ plGetChunk s size := by
  rw [plGetChunk] at h ⊢
  split_ifs at h ⊢
  · exact absurd h (by decide)
  · exact le_chunkLoop _ hs.chunk_lt h

/-- The deepest buddy has chunks of up to 2 MiB. -/
theorem budRndup_large {s : Mm} (hs : Limits s) {size : ℤ} (h : 2097152 < size) :
    budRndup s size < 0 := by
  have hpow (k : ℕ) (hk : k ≤ 11) : 2 ^ k ≤ 2 ^ 11 := Nat.pow_le_pow_right (by decide) hk
  have hdep := hpow s.bm.dep hs.dep_le
  have hfit : 2048 * 2 ^ (0 + s.bm.dep) < 2147483648 := by
    rw [Nat.zero_add]
    omega
  rw [budRndup]
  split_ifs
  · decide
  · rw [hs.ll, show (2048 : ℕ) = 2048 * 2 ^ 0 from rfl, chunkLoop_eq_neg hfit]
    · decide
    · intro k hk
      have hk10 : 2 ^ k ≤ 2 ^ 10 := Nat.pow_le_pow_right (by decide) (by have := hs.dep_le; omega)
      push_cast
      have : ((2 ^ k : ℕ) : ℤ) ≤ 1024 := by exact_mod_cast hk10
      push_cast at this
      omega

/-! ## What a call needs to answer with an address -/

theorem budRndup_of_served {s : Mm} {size : ℤ} {p : ℕ} (h : (_budAlloc s size).1 = .addr p) :
    0 ≤ budRndup s size := by
  by_contra hneg
  rw [not_le] at hneg
  simp only [_budAlloc, if_pos hneg, ite_self] at h
  cases h

/-- An error value stands for NULL only. -/
theorem addr_of_ite_code {r : Ptr × Mm} {e : ℤ} {p : ℕ}
    (h : (if r.1.val = 0 then (.code e, r.2) else r).1 = .addr p) : r.1 = .addr p ∧ p ≠ 0 := by
  by_cases hnull : r.1.val = 0
  · rw [if_pos hnull] at h
    cases h
  · rw [if_neg hnull] at h
    rw [h, Ptr.val_addr] at hnull
    exact ⟨h, hnull⟩

theorem budAlloc_served {s : Mm} {size : ℤ} {p : ℕ} (h : (budAlloc s size).1 = .addr p) :
    1 ≤ size ∧ p ≠ 0 ∧ (MM_PAGE_SIZE < size → (_budAlloc s size).1 = .addr p) := by
  by_cases hpos : size < 1
  · rw [budAlloc, if_pos hpos] at h
    cases h
  · rw [budAlloc, if_neg hpos] at h
    obtain ⟨hr, hne⟩ := addr_of_ite_code h
    refine ⟨by omega, hne, fun hpage => ?_⟩
    rwa [if_pos hpage] at hr

theorem plGetChunk_of_served {s : Mm} {size : ℤ} {p : ℕ} (h : (plAlloc s size).1 = .addr p) :
    0 ≤ plGetChunk s size := by
  by_contra hneg
  rw [not_le] at hneg
  by_cases hpos : size < 1
  · rw [plAlloc, if_pos hpos] at h
    cases h
  · simp only [plAlloc, if_neg hpos, if_pos hneg] at h
    cases h

theorem yalloc_served {s : Mm} {size : ℤ} {p : ℕ} (h : (yalloc s size).1 = .addr p) :
    (2048 ≤ size ∧ (budAlloc s (toInt size)).1 = .addr p) ∨
      (1 ≤ size ∧ size < 2048 ∧ (plAlloc s (toInt size)).1 = .addr p) := by
  by_cases hpos : size < 1
  · rw [yalloc, if_pos hpos] at h
    cases h
  · rw [yalloc, if_neg hpos] at h
    have hr := (addr_of_ite_code h).1
    rw [mmGetPriLlc] at hr
    by_cases hge : size ≥ 2048
    · rw [if_pos hge] at hr
      exact Or.inl ⟨hge, hr⟩
    · rw [if_neg hge] at hr
      exact Or.inr ⟨by omega, by omega, hr⟩

/-- A size that fits an `int` gets a block of its length. -/
theorem le_reserved {s : Mm} (hs : Limits s) {size : ℤ} {p : ℕ}
    (h : (yalloc s size).1 = .addr p) (hfit : size ≤ 2147483647) : size ≤ reserved s size := by
  rw [reserved, mmGetPriLlc]
  rcases yalloc_served h with ⟨hge, hbud⟩ | ⟨hpos, hlt, hpool⟩
  · have hint : toInt size = size := toInt_of_range (by omega) (by omega)
    rw [hint] at hbud
    rw [if_pos hge, hint]
    split_ifs with hpage
    · exact le_budRndup hs (budRndup_of_served ((budAlloc_served hbud).2.2 hpage))
    · exact not_lt.1 hpage
  · have hint : toInt size = size := toInt_of_range (by omega) (by omega)
    rw [hint] at hpool
    rw [if_neg (by omega), hint]
    exact le_plGetChunk hs (plGetChunk_of_served hpool)

/-- A size whose `int` is no size of the buddy gets nothing. -/
theorem not_served {s : Mm} (hs : Limits s) {size : ℤ} (hwide : 2147483647 < size)
    (hint : toInt size < 1 ∨ 2097152 < toInt size) (p : ℕ) : (yalloc s size).1 ≠ .addr p := by
  intro h
  rcases yalloc_served h with ⟨-, hbud⟩ | ⟨-, hlt, -⟩
  · obtain ⟨hpos, -, hchunk⟩ := budAlloc_served hbud
    have hlarge := hint.resolve_left (by omega)
    have hneg := budRndup_large hs hlarge
    have hserved := budRndup_of_served (hchunk (by rw [MM_PAGE_SIZE]; omega))
    omega
  · omega

/-! ## The limits and the headers -/

theorem _budAlloc_same (s : Mm) (size : ℤ) : Same s (_budAlloc s size).2 := by
  have hencode (s : Mm) (chunk ost dep : ℕ) : Same s (budEncode s chunk ost dep).2 := by
    simp only [budEncode]
    split_ifs <;> exact same_withMem s _
  have h := (budFindFree_same s (budGetOrd s (toU32 (budRndup s size)))).trans
    (hencode _ (toU32 (budRndup s size))
      (toU32 (budFindFree s (budGetOrd s (toU32 (budRndup s size)))).1)
      (u8 (toU32 (budGetOrd s (toU32 (budRndup s size))))))
  simp only [_budAlloc]
  split_ifs
  · exact Same.refl s
  · exact Same.refl s
  · exact Same.refl s
  all_goals exact h

/-- The loop of `_bud_init` writes neither the limits nor the pools. -/
theorem budInitLoop_keeps (n fuel i ll base size : ℕ) (s : Mm) :
    (budInitLoop n fuel i ll base size s).2.bm = s.bm ∧
      (budInitLoop n fuel i ll base size s).2.pools = s.pools := by
  induction fuel generalizing i ll base size s with
  | zero => exact ⟨rfl, rfl⟩
  | succ fuel ih =>
    rw [budInitLoop]
    exact ih _ _ _ _ _

/-- `_bud_init` sets the limits where it leaves more than a page for data. -/
theorem limits_init {s : Mm} {base : ℕ} {heapSize : ℤ} (hbase : base ≠ 0)
    (hmin : MM_HEAP_MIN_SIZE ≤ heapSize) (hdata : 2048 < budGetRealSize 2048 32 heapSize 2048)
    (hchunk : (s.pools 0).chunk < 4294967296) : Limits (_budInit s base heapSize 2048).2 := by
  obtain ⟨n, hn⟩ : ∃ n : ℕ, budGetRealSize 2048 32 heapSize 2048 = n :=
    ⟨_, (Int.toNat_of_nonneg (by omega)).symm⟩
  obtain ⟨d, hd, hdep⟩ := budGetDep_spec (n := n) (by omega)
  have hle := hd.le
  unfold _budInit
  rw [if_neg hbase, if_neg (not_lt.2 hmin), if_neg (by decide)]
  simp only [show toU32 2048 = 2048 from rfl, BITMAP_DEF_BIT, Nat.cast_ofNat, hn,
    if_neg (show ¬ (n : ℤ) < 0 by omega), Int.toNat_natCast, hdep,
    toU32_natCast (show d < 4294967296 by omega)]
  refine ⟨rfl, hle, ?_⟩
  simp only [(budInitLoop_keeps _ _ _ _ _ _ _).2]
  exact hchunk

/-- A call keeps the limits where it changes neither `bm` nor a chunk. -/
theorem Limits.congr {s s' : Mm} (hs : Limits s) (hbm : s'.bm = s.bm)
    (hchunk : (s'.pools 0).chunk = (s.pools 0).chunk) : Limits s' where
  ll := by rw [hbm]; exact hs.ll
  dep_le := by rw [hbm]; exact hs.dep_le
  chunk_lt := by rw [hchunk]; exact hs.chunk_lt

theorem Limits.same {s s' : Mm} (hs : Limits s) (h : Same s s') : Limits s' :=
  hs.congr h.bm (by rw [h.pools])

theorem Limits.lazyTake {s : Mm} (hs : Limits s) : Limits (budLazyTake listOps s).2 := by
  simp only [budLazyTake]
  split_ifs
  · exact hs.congr rfl rfl
  · exact hs.congr rfl rfl

theorem Limits.lazyRefill (pages fuel i : ℕ) {s : Mm} (hs : Limits s) :
    Limits (budLazyRefill pages fuel i s).2 := by
  induction fuel generalizing i s with
  | zero => exact hs
  | succ fuel ih =>
    have hpage := hs.same (_budAlloc_same s MM_PAGE_SIZE)
    simp only [budLazyRefill]
    generalize _budAlloc s MM_PAGE_SIZE = r at hpage ⊢
    split_ifs
    · exact hpage.congr rfl rfl
    · exact ih _ (hpage.congr rfl rfl)

theorem Limits.lazyAlloc {s : Mm} (hs : Limits s) : Limits (budLazyAlloc s).2 := by
  have hdescs := hs.same (_budAlloc_same s (toInt (sizeofLazyPage * s.lazy.batch)))
  simp only [budLazyAlloc]
  generalize _budAlloc s (toInt (sizeofLazyPage * s.lazy.batch)) = r at hdescs ⊢
  split_ifs
  · exact hdescs
  · exact hdescs.lazyRefill _ _ _
  · exact (hdescs.lazyRefill _ _ _).lazyTake
  · exact hs.lazyTake

theorem Limits.budAlloc {s : Mm} (hs : Limits s) (size : ℤ) : Limits (budAlloc s size).2 := by
  have hblock := hs.same (_budAlloc_same s size)
  have hpage := hs.lazyAlloc
  simp only [Wide.budAlloc, apply_ite Prod.snd, ite_self]
  split_ifs
  · exact hs
  · exact hblock
  · exact hpage

theorem Limits.plAlloc {s : Mm} (hs : Limits s) (size : ℤ) : Limits (plAlloc s size).2 := by
  simp only [Wide.plAlloc]
  split_ifs
  all_goals first
    | exact hs
    | refine hs.congr rfl ?_
  all_goals
    simp only [Function.update_apply]
    split_ifs with h0
    · rw [← h0]
    · rfl

/-- So every state that calls of `yalloc` lead to has them. -/
theorem limits_yalloc {s : Mm} (hs : Limits s) (size : ℤ) : Limits (yalloc s size).2 := by
  have hbud := hs.budAlloc (toInt size)
  have hpool := hs.plAlloc (toInt size)
  simp only [yalloc, apply_ite Prod.snd, ite_self]
  split_ifs
  · exact hs
  · exact hbud
  · exact hpool

/-- The header of a block that `_bud_alloc` hands out names the chunk that is reserved. -/
theorem header_reserved {s : Mm} (L : Layout s) {size : ℤ} {p : ℕ}
    (h : (_budAlloc s size).1 = .addr p) :
    budGetChunk (_budAlloc s size).2
        (load8 (_budAlloc s size).2.mem (budDecode (_budAlloc s size).2 p)) =
      budRndup s size := by
  have hchunk := budRndup_of_served h
  have hpos : 1 ≤ size := by
    by_contra hlt
    rw [_budAlloc, if_pos (by omega)] at h
    cases h
  have hul : size ≤ s.bm.ul := by
    by_contra hgt
    have := budRndup_neg L (not_le.1 hgt)
    omega
  obtain ⟨o, hclass⟩ := exists_isClass L hul
  obtain ⟨hrnd, hord⟩ := budRndup_of_class L hpos hclass
  have ho := hclass.lt
  have hdep := L.dep_le
  have hle := chunk_le (show o ≤ 11 by omega)
  have hneg (n : ℕ) : ¬ (n : ℤ) < 0 := by omega
  have hs := _budAlloc_same s size
  have hf := budFindFree_same s o
  obtain ⟨r, hr⟩ : ∃ r, budFindFree s o = r := ⟨_, rfl⟩
  rw [hr] at hf
  have hres : _budAlloc s size = if (budEncode r.2 (2048 * 2 ^ o) (toU32 r.1) o).1.val = 0 then
      (.code 0, (budEncode r.2 (2048 * 2 ^ o) (toU32 r.1) o).2)
      else budEncode r.2 (2048 * 2 ^ o) (toU32 r.1) o := by
    simp only [_budAlloc, if_neg (show ¬ size < 1 by omega), hrnd, if_neg (hneg _),
      toU32_natCast (show 2048 * 2 ^ o < 4294967296 by omega), hord, hr,
      toU32_natCast (show o < 4294967296 by omega), u8_ord L ho]
  have haddr : (budEncode r.2 (2048 * 2 ^ o) (toU32 r.1) o).1 = .addr p := by
    rw [hres] at h
    exact (addr_of_ite_code h).1
  have hheader : load8 (_budAlloc s size).2.mem (budDecode (_budAlloc s size).2 p) = o := by
    have hmem : (_budAlloc s size).2.mem = (budEncode r.2 (2048 * 2 ^ o) (toU32 r.1) o).2.mem := by
      rw [hres]
      split_ifs <;> rfl
    rw [hmem, budDecode, hs.bm]
    simp only [budEncode, hf.bm] at haddr ⊢
    have hx : u32 (2048 * 2 ^ o * toU32 r.1) < 4294967296 := Nat.mod_lt _ (by decide)
    generalize u32 (2048 * 2 ^ o * toU32 r.1) = x at haddr hx ⊢
    split_ifs at haddr ⊢
    obtain rfl := Ptr.addr.inj haddr
    -- the offset is recovered whatever the sum has wrapped to
    have hoff : toU32 (((u32 (s.bm.heapBase + x) : ℕ) : ℤ) - s.bm.heapBase) = x := by
      unfold toU32 u32
      omega
    rw [hoff]
    exact (load8_store8 _ _ _).trans (Nat.mod_eq_of_lt (by omega))
  rw [hheader, budGetChunk_spec (hs.layout L) (by rw [hs.bm]; exact ho), hrnd]

/-! ## Sizes that the narrowing lets through -/

/-- A request with a class gets the block that `bud_find_free` takes. -/
theorem _budAlloc_of_find {s : Mm} (L : Layout s) {size : ℤ} (hpos : 1 ≤ size) {o t : ℕ}
    (hclass : IsClass s size o) (ht : t < (s.bud o).num) (hfind : (budFindFree s o).1 = t) :
    (_budAlloc s size).1 = .addr (s.blockAddr ⟨o, t⟩) := by
  have ho := hclass.lt
  have hdep := L.dep_le
  have hchunk := chunk_le (show o ≤ 11 by omega)
  have hend := L.block_end ho ht
  have hlt := L.heap_lt
  have hfits := L.fits
  have hbase := L.base_pos 0 L.dep_pos
  have hhdr := L.base_hdr 0 L.dep_pos
  have hheap := L.heapBase
  obtain ⟨hrnd, hord⟩ := budRndup_of_class L hpos hclass
  have hneg (n : ℕ) : ¬ (n : ℤ) < 0 := by omega
  have htlt : t < 4294967296 := by
    have := L.num_le_bits ho
    have := L.bits_lt ho
    omega
  have hbm := (budFindFree_same s o).bm
  simp only [_budAlloc, if_neg (show ¬ size < 1 by omega), hrnd, if_neg (hneg _),
    toU32_natCast (show 2048 * 2 ^ o < 4294967296 by omega), hord, hfind, toU32_natCast htlt,
    toU32_natCast (show o < 4294967296 by omega), budEncode, hbm,
    u32_of_lt (show 2048 * 2 ^ o * t < 4294967296 by omega),
    u32_of_lt (show s.bm.heapBase + 2048 * 2 ^ o * t < 4294967296 by omega),
    u32_of_lt (show s.bm.heapBase + 2048 * 2 ^ o * t + 2048 * 2 ^ o < 4294967296 by omega)]
  rw [if_neg (show ¬ s.bm.heapBase + 2048 * 2 ^ o * t + 2048 * 2 ^ o >
    s.bm.heapBase + s.bm.heapSize by omega), if_neg (by rw [Ptr.val_addr]; omega)]
  rfl

/-- The 64-bit buddy over 17 MiB at `MM_BASE`, right after `_bud_init`. -/
def start : Mm := (_budInit (.boot ⟨fun _ => 0⟩ 4 12) 0x2000000 0x1100000 2048).2

theorem start_layout : Layout start where
  ll := by decide +kernel
  dep_pos := by decide +kernel
  dep_le := by decide +kernel
  ul := by decide +kernel
  heap_lt := by decide +kernel
  num := by decide +kernel
  num_ge := by decide +kernel
  bit := by decide +kernel
  size := by decide +kernel
  base_pos := by decide +kernel
  base_lt i j hij hj := by
    have h : ∀ j < start.bm.dep, ∀ i < j,
        (start.bud i).bmp.base + 4 * (start.bud i).bmp.size ≤ (start.bud j).bmp.base := by
      decide +kernel
    exact h j hj i hij
  base_hdr := by decide +kernel
  hdr_near := by decide +kernel
  heapBase := by decide +kernel
  fits := by decide +kernel

theorem start_limits : Limits start := ⟨start_layout.ll, start_layout.dep_le, by decide +kernel⟩

/-- Every size up to 2 MiB is served from the start. -/
theorem start_serves {size : ℤ} (hpos : 1 ≤ size) (hle : size ≤ 2097152) :
    ∃ p, (budAlloc start size).1 = .addr p ∧ IsBlock start p := by
  have L := start_layout
  by_cases hpage : MM_PAGE_SIZE < size
  · have hul : start.bm.ul = 2097152 := by decide +kernel
    obtain ⟨o, hclass⟩ := exists_isClass L (show size ≤ start.bm.ul by rw [hul]; exact hle)
    have hfirst : ∀ o < start.bm.dep, bitmapGetFree start.mem (start.bud o).bmp = (0 : ℕ) := by
      decide +kernel
    have hnum := L.num_ge o hclass.lt
    have hfind : (budFindFree start o).1 = (0 : ℕ) := by
      rw [budFindFree_eq (hfirst o hclass.lt)]
    have hserved := _budAlloc_of_find L hpos hclass (by omega) hfind
    have hne := BudInv.addr_pos L ⟨o, 0⟩
    refine ⟨_, ?_, Or.inl ⟨⟨o, 0⟩, hclass.lt, by simp only; omega, rfl⟩⟩
    rw [budAlloc, if_neg (by omega), if_pos hpage]
    simp only [hserved, Ptr.val_addr]
    rw [if_neg (by omega)]
    exact hserved
  · have hserved : (budLazyAlloc start).1 = .addr 33567722 := by decide +kernel
    refine ⟨33567722, ?_, Or.inl ⟨⟨0, 1⟩, L.dep_pos, by decide +kernel, by decide +kernel⟩⟩
    rw [budAlloc, if_neg (by omega), if_neg hpage]
    simp only [hserved, Ptr.val_addr]
    rw [if_neg (by decide)]
    exact hserved

theorem yalloc_of_budAlloc {s : Mm} {size : ℤ} (hge : 2048 ≤ size) {p : ℕ}
    (h : (budAlloc s (toInt size)).1 = .addr p) : (yalloc s size).1 = .addr p := by
  have hpri : size ≥ mmGetPriLlc := hge
  have hne := (budAlloc_served h).2.1
  rw [yalloc, if_neg (show ¬ size < 1 by omega)]
  simp only [if_pos hpri, h, Ptr.val_addr, if_neg hne]

theorem reserved_le (s : Mm) {size : ℤ} (hge : 2048 ≤ size) :
    reserved s size ≤ 2147483647 := by
  have hlt (z : ℤ) : budRndup s z < 2147483648 := by
    rw [budRndup]
    split_ifs
    · decide
    · exact chunkLoop_lt _ _ _
  rw [reserved, mmGetPriLlc, if_pos hge]
  split_ifs
  · have := hlt (toInt size)
    omega
  · decide

/-- `yalloc` never reports a block that is too short exactly for the sizes that fit an `int` and
for those whose `int` no buddy serves. -/
theorem yalloc_length_iff (size : ℤ) :
    (∀ s, Limits s → ∀ p, (yalloc s size).1 = .addr p → IsBlock s p → size ≤ reserved s size) ↔
      size ≤ 2147483647 ∨ toInt size < 1 ∨ 2097152 < toInt size := by
  constructor
  · intro hall
    by_contra hnot
    rw [not_or, not_or, not_le, not_lt, not_lt] at hnot
    obtain ⟨hwide, hpos, hle⟩ := hnot
    obtain ⟨p, hserved, hblock⟩ := start_serves hpos hle
    have hyalloc : (yalloc start size).1 = .addr p := yalloc_of_budAlloc (by omega) hserved
    have hlen := hall start start_limits p hyalloc hblock
    have hres := reserved_le start (show 2048 ≤ size by omega)
    omega
  · rintro (hfit | hint) s hs p hserved -
    · exact le_reserved hs hserved hfit
    · by_cases hfit : size ≤ 2147483647
      · exact le_reserved hs hserved hfit
      · exact absurd hserved (not_served hs (not_le.1 hfit) hint p)

/-- A request of 4 GiB and two pages gets a block of two pages. -/
theorem yalloc_length_fails : ¬ ∀ (size : ℤ) (s : Mm), Limits s → ∀ p,
    (yalloc s size).1 = .addr p → IsBlock s p → size ≤ reserved s size := by
  intro hall
  have hint : toInt 4294971392 = 4096 := by decide
  obtain ⟨p, hserved, hblock⟩ := start_serves (show (1 : ℤ) ≤ 4096 by decide) (by decide)
  rw [← hint] at hserved
  have hlen := hall 4294971392 start start_limits p (yalloc_of_budAlloc (by decide) hserved) hblock
  have hres := reserved_le start (show (2048 : ℤ) ≤ 4294971392 by decide)
  omega

end YohdaOS.Wide
