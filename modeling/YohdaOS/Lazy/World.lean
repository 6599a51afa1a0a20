import YohdaOS.Buddy.Lazy
import YohdaOS.Buddy.Run
import YohdaOS.Lazy.Lists
import YohdaOS.Lazy.Order0

/-!
# What the lazy layer knows

`World s B D F U`: of the pages `B` that are out, those of `D` hold descriptors; the descriptors on
`lazy.frees` are `F`, those on `lazy.inuses` are `U`, and each has a page of its own.
-/

namespace YohdaOS

open ByteMem

/-- The nodes `N` are descriptors in the pages `D`, each with a page that holds no descriptors. -/
structure Nodes (s : Mm) (B D N : List ℕ) : Prop where
  order0 : Order0 s B
  descs : D ⊆ B
  nodes : ∀ n ∈ N, ∃ d ∈ D, ∃ i, sizeofLazyPage * i < 2048 ∧ n = s.page d + sizeofLazyPage * i
  pages : ∀ n ∈ N, ∃ k ∈ B, k ∉ D ∧ k ≠ 0 ∧ s.pageAddr n = s.page k
  single : (N.map s.pageAddr).Nodup
  valid : ∀ n ∈ N, isMemErr s (s.pageAddr n) = false

/-- `a` is no address of the heap. -/
def Mm.Outside (s : Mm) (a : ℕ) : Prop := a < s.bm.heapBase ∨ s.bm.heapBase + s.bm.heapSize ≤ a

structure World (s : Mm) (B D F U : List ℕ) : Prop extends Nodes s B D (F ++ U) where
  lists : Lists s.links s.lazy.frees s.lazy.inuses F U
  fnum : s.lazy.fnum = F.length
  unum : s.lazy.unum = U.length
  batch : s.lazy.batch = 31
  wmk : s.lazy.wmk = 186
  frees_out : s.Outside s.lazy.frees
  inuses_out : s.Outside s.lazy.inuses
  taken : ∀ n ∈ U, isMemErr s n = false

variable {s s' : Mm} {B B' D F U N M : List ℕ} {d i k n p x : ℕ}

theorem page_congr (h : s'.bm = s.bm) (k : ℕ) : s'.page k = s.page k := by
  rw [Mm.page, Mm.page, h]

theorem page_injective (s : Mm) : Function.Injective s.page := by
  intro j k h
  unfold Mm.page at h
  omega

/-- The bits and headers are in the memory. -/
theorem Order0.congr (h : Order0 s B) (hs : SameBud s s') (hm : s'.mem = s.mem) : Order0 s' B where
  layout := hs.layout h.layout
  bit k hk := by
    rw [hs.bits] at hk
    rw [Mm.bit, hm, hs.bmp, hs.num]
    exact h.bit k hk
  real k hk := by
    rw [hs.num]
    exact h.real k hk
  nodup := h.nodup
  header k hk hk0 := by
    rw [Mm.header, hm, hs.bm]
    exact h.header k hk hk0
  first := h.first

theorem HasFree.clear {size : ℤ} (h : HasFree s size) (hle : size ≤ 2048) :
    ∃ k < s.bits 0, s.bit 0 k = false := by
  obtain ⟨o, hclass, hclear⟩ := h
  rcases Nat.eq_zero_or_pos o with rfl | hpos
  · exact hclear
  · have hlt := hclass.least 0 hpos
    rw [pow_zero, Nat.mul_one] at hlt
    omega

/-! ## The nodes -/

namespace Nodes

theorem perm (h : Nodes s B D N) (hp : N.Perm M) : Nodes s B D M where
  order0 := h.order0
  descs := h.descs
  nodes n hn := h.nodes n (hp.mem_iff.2 hn)
  pages n hn := h.pages n (hp.mem_iff.2 hn)
  single := (hp.map _).nodup_iff.1 h.single
  valid n hn := h.valid n (hp.mem_iff.2 hn)

/-- Another state that says the same of the nodes, with the pages of `B'` out. -/
theorem congr (h : Nodes s B D N) (hbm : s'.bm = s.bm) (ho : Order0 s' B')
    (hpage : ∀ n ∈ N, s'.pageAddr n = s.pageAddr n) (hdescs : D ⊆ B')
    (hpages : ∀ n ∈ N, ∀ k ∈ B, s.pageAddr n = s.page k → k ∈ B') : Nodes s' B' D N where
  order0 := ho
  descs := hdescs
  nodes n hn := by
    simp only [page_congr hbm]
    exact h.nodes n hn
  pages n hn := by
    obtain ⟨k, hk, hkD, hk0, hnk⟩ := h.pages n hn
    exact ⟨k, hpages n hn k hk hnk, hkD, hk0, by rw [hpage n hn, page_congr hbm, hnk]⟩
  single := by
    rw [List.map_congr_left hpage]
    exact h.single
  valid n hn := by
    rw [hpage n hn, isMemErr_congr hbm]
    exact h.valid n hn

/-- More pages are out. -/
theorem mono (h : Nodes s B D N) (hbm : s'.bm = s.bm) (ho : Order0 s' B')
    (hpage : ∀ n ∈ N, s'.pageAddr n = s.pageAddr n) (hB : B ⊆ B') : Nodes s' B' D N :=
  h.congr hbm ho hpage (fun _ hk => hB (h.descs hk)) fun _ _ _ hk _ => hB hk

/-- A new page of descriptors. -/
theorem desc (h : Nodes s B D N) (hd : d ∈ B) (hnew : ∀ n ∈ N, s.pageAddr n ≠ s.page d) :
    Nodes s B (d :: D) N where
  order0 := h.order0
  descs := List.cons_subset.2 ⟨hd, h.descs⟩
  nodes n hn := by
    obtain ⟨e, he, i, hi, hne⟩ := h.nodes n hn
    exact ⟨e, List.mem_cons_of_mem d he, i, hi, hne⟩
  pages n hn := by
    obtain ⟨k, hk, hkD, hk0, hnk⟩ := h.pages n hn
    refine ⟨k, hk, ?_, hk0, hnk⟩
    rw [List.mem_cons, not_or]
    exact ⟨fun e => hnew n hn (e ▸ hnk), hkD⟩
  single := h.single
  valid := h.valid

/-- A new node. -/
theorem cons (h : Nodes s B D N) (hd : d ∈ D) (hi : sizeofLazyPage * i < 2048) (hk : k ∈ B)
    (hkD : k ∉ D) (hk0 : k ≠ 0) (hpage : s.pageAddr (s.page d + sizeofLazyPage * i) = s.page k)
    (hnew : ∀ n ∈ N, s.pageAddr n ≠ s.page k) (hvalid : isMemErr s (s.page k) = false) :
    Nodes s B D ((s.page d + sizeofLazyPage * i) :: N) where
  order0 := h.order0
  descs := h.descs
  nodes n hn := by
    rcases List.mem_cons.1 hn with rfl | hn
    · exact ⟨d, hd, i, hi, rfl⟩
    · exact h.nodes n hn
  pages n hn := by
    rcases List.mem_cons.1 hn with rfl | hn
    · exact ⟨k, hk, hkD, hk0, hpage⟩
    · exact h.pages n hn
  single := by
    rw [List.map_cons, List.nodup_cons, hpage]
    refine ⟨fun hmem => ?_, h.single⟩
    obtain ⟨n, hn, hnk⟩ := List.mem_map.1 hmem
    exact hnew n hn hnk
  valid n hn := by
    rcases List.mem_cons.1 hn with rfl | hn
    · rw [hpage]
      exact hvalid
    · exact h.valid n hn

theorem tail (h : Nodes s B D (x :: N)) : Nodes s B D N where
  order0 := h.order0
  descs := h.descs
  nodes n hn := h.nodes n (List.mem_cons_of_mem x hn)
  pages n hn := h.pages n (List.mem_cons_of_mem x hn)
  single := (List.nodup_cons.1 h.single).2
  valid n hn := h.valid n (List.mem_cons_of_mem x hn)

/-- The page of a node given back to the buddy. -/
theorem budFree (h : Nodes s B D (x :: N)) :
    ∃ k, Nodes (_budFree s (s.pageAddr x)) (B.erase k) D N := by
  obtain ⟨k, hk, hkD, hk0, hxk⟩ := h.pages x List.mem_cons_self
  have hd := h.order0.nodup
  have hsame := _budFree_same s (s.pageAddr x)
  refine ⟨k, h.tail.congr hsame.bm ?_ (fun n _ => by rw [hsame.pageAddr]) ?_ ?_⟩
  · rw [hxk]
    exact h.order0.free hk hk0
  · intro e he
    rw [hd.mem_erase_iff]
    exact ⟨fun hek => hkD (hek ▸ he), h.descs he⟩
  · intro n hn j hj hnj
    rw [hd.mem_erase_iff]
    refine ⟨?_, hj⟩
    rintro rfl
    have hnot := (List.nodup_cons.1 h.single).1
    rw [hxk, ← hnj] at hnot
    exact hnot (List.mem_map_of_mem hn)

/-- A descriptor lies in the heap. -/
theorem node_mem (h : Nodes s B D N) (hd : d ∈ D) (hi : sizeofLazyPage * i < 2048) :
    s.bm.heapBase ≤ s.page d + sizeofLazyPage * i ∧
      s.page d + sizeofLazyPage * i < s.bm.heapBase + s.bm.heapSize := by
  have hend := h.order0.page_end (h.descs hd)
  have hge : s.bm.heapBase ≤ s.page d := Nat.le_add_right _ _
  omega

theorem node_ne_zero (h : Nodes s B D N) (d i : ℕ) : s.page d + sizeofLazyPage * i ≠ 0 := by
  have hpos := h.order0.page_pos d
  omega

/-- The descriptors in a page that is out but not in `D` are new. -/
theorem node_new (h : Nodes s B D N) (hd : d ∉ D) (hi : sizeofLazyPage * i < 2048) :
    s.page d + sizeofLazyPage * i ∉ N := by
  intro hn
  obtain ⟨e, he, j, hj, heq⟩ := h.nodes _ hn
  have hne : d ≠ e := fun hde => hd (hde ▸ he)
  unfold Mm.page at heq
  omega

end Nodes

end YohdaOS
