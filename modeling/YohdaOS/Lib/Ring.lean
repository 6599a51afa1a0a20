import YohdaOS.Lib.Chain

/-!
# Rings of links

`Ring next prev h l` says that the links `next` lead from the head `h` through the nodes of `l` back
to `h`, and the links `prev` the same way back.  A node is linked in at the tail, and any node can be
unlinked.  `Reach next h n` says that the links lead from `h` to `n`, whatever shape they have.
-/

namespace Chains

variable {next prev next' prev' : ℕ → ℕ} {a e h n x : ℕ} {l m A B : List ℕ}

/-! ## Chains that are cut -/

theorem chain_append : Chain next a (l ++ m) e ↔ ∃ b, Chain next a l b ∧ Chain next b m e := by
  induction l generalizing a with
  | nil => simp
  | cons x l ih =>
    simp only [List.cons_append, chain_cons, ih]
    constructor
    · rintro ⟨rfl, b, hb, hm⟩
      exact ⟨b, ⟨rfl, hb⟩, hm⟩
    · rintro ⟨b, ⟨rfl, hb⟩, hm⟩
      exact ⟨rfl, b, hb, hm⟩

theorem chain_snoc : Chain next a (l ++ [x]) e ↔ Chain next a l x ∧ next x = e := by
  rw [chain_append]
  constructor
  · rintro ⟨b, hb, rfl, rfl⟩
    exact ⟨hb, rfl⟩
  · rintro ⟨hx, rfl⟩
    exact ⟨x, hx, rfl, rfl⟩

theorem Chain.next_eq (hc : Chain next a (A ++ x :: B) e) : next x = B.headD e := by
  obtain ⟨b, -, rfl, hb⟩ := chain_append.1 hc
  exact hb.eq_headD

/-- The end cuts off one list of nodes only. -/
theorem Chain.unique (hl : Chain next a l e) (hm : Chain next a m e) (hel : e ∉ l) (hem : e ∉ m) :
    l = m := by
  induction l generalizing a m with
  | nil =>
    obtain rfl : a = e := hl
    cases m with
    | nil => rfl
    | cons y m =>
      obtain ⟨rfl, -⟩ := hm
      simp at hem
  | cons x l ih =>
    obtain ⟨rfl, hl⟩ := hl
    cases m with
    | nil =>
      obtain rfl : a = e := hm
      simp at hel
    | cons y m =>
      obtain ⟨rfl, hm⟩ := hm
      rw [ih hl hm (by simp_all) (by simp_all)]

/-! ## Loops through a head -/

/-- Linking a node in at the end of a loop. -/
theorem Chain.link_last (hc : Chain next (next h) l h) (hd : (h :: l).Nodup) (hn : n ∉ h :: l) :
    Chain (Function.update (Function.update next n h) (l.getLastD h) n)
      (Function.update (Function.update next n h) (l.getLastD h) n h) (l ++ [n]) h := by
  rw [List.mem_cons, not_or] at hn
  obtain ⟨hnh, hnl⟩ := hn
  rw [List.nodup_cons] at hd
  rcases List.eq_nil_or_concat l with rfl | ⟨l, z, rfl⟩
  · rw [List.getLastD_nil]
    simp [Function.update_of_ne hnh]
  · rw [List.concat_eq_append] at *
    have hz : z ∉ l := by
      intro hz
      simp only [List.nodup_append] at hd
      exact hd.2.2.2 z hz z (List.mem_singleton_self z) rfl
    have hzn : n ≠ z := by rintro rfl; simp at hnl
    have hzh : h ≠ z := by rintro rfl; simp at hd
    rw [List.getLastD_concat, chain_snoc, chain_snoc]
    rw [chain_snoc] at hc
    simp only [Function.update_self, Function.update_of_ne hzh, Function.update_of_ne hzn,
      Function.update_of_ne (Ne.symm hnh), and_true]
    refine hc.1.congr fun y hy => ?_
    rw [Function.update_of_ne (by rintro rfl; exact hz hy),
      Function.update_of_ne (by rintro rfl; simp [hy] at hnl)]

/-- Linking a node in at the start of a loop. -/
theorem Chain.link_first (hc : Chain next (next h) l h) (hn : n ∉ h :: l) (hh : h ∉ l) :
    Chain (Function.update (Function.update next n (next h)) h n)
      (Function.update (Function.update next n (next h)) h n h) (n :: l) h := by
  rw [List.mem_cons, not_or] at hn
  rw [Function.update_self, chain_cons, Function.update_of_ne hn.1, Function.update_self]
  refine ⟨rfl, hc.congr fun y hy => ?_⟩
  rw [Function.update_of_ne (by rintro rfl; exact hh hy),
    Function.update_of_ne (by rintro rfl; exact hn.2 hy)]

/-- Unlinking a node of a loop. -/
theorem Chain.unlink (hc : Chain next (next h) (A ++ x :: B) h) (hd : (h :: (A ++ x :: B)).Nodup) :
    Chain (Function.update next (A.getLastD h) (next x))
      (Function.update next (A.getLastD h) (next x) h) (A ++ B) h := by
  obtain ⟨b, hA, hbx, hB⟩ := chain_append.1 hc
  obtain rfl : x = b := hbx.symm
  rcases List.eq_nil_or_concat A with rfl | ⟨A, z, rfl⟩
  · simp only [List.nil_append, List.nodup_cons, List.mem_cons, not_or] at hd
    simp only [List.getLastD_nil, Function.update_self, List.nil_append]
    exact hB.congr fun y hy => Function.update_of_ne (by rintro rfl; exact hd.1.2 hy) _ _
  · rw [List.concat_eq_append] at *
    rw [chain_snoc] at hA
    simp only [List.append_assoc, List.singleton_append, List.nodup_cons, List.mem_append,
      List.mem_cons, not_or, List.nodup_append] at hd
    have hzA : z ∉ A := fun hz => hd.2.2.2 z hz z (Or.inl rfl) rfl
    have hzB : z ∉ B := hd.2.2.1.1.2
    have hzh : h ≠ z := hd.1.2.1
    rw [List.getLastD_concat, chain_append, Function.update_of_ne hzh]
    refine ⟨next _, chain_snoc.2 ⟨hA.1.congr fun y hy => ?_, Function.update_self _ _ _⟩,
      hB.congr fun y hy => ?_⟩
    · exact Function.update_of_ne (by rintro rfl; exact hzA hy) _ _
    · exact Function.update_of_ne (by rintro rfl; exact hzB hy) _ _

/-! ## Rings -/

structure Ring (next prev : ℕ → ℕ) (h : ℕ) (l : List ℕ) : Prop where
  fwd : Chain next (next h) l h
  bwd : Chain prev (prev h) l.reverse h
  nodup : (h :: l).Nodup

theorem Ring.head_not_mem (hr : Ring next prev h l) : h ∉ l := (List.nodup_cons.1 hr.nodup).1

theorem nodup_reverse (hd : (h :: l).Nodup) : (h :: l.reverse).Nodup := by
  rw [List.nodup_cons] at hd ⊢
  exact ⟨by simpa using hd.1, List.nodup_reverse.2 hd.2⟩

/-- A ring depends on the links of its head and its nodes only. -/
theorem Ring.congr (hr : Ring next prev h l) (hnext : ∀ y ∈ h :: l, next' y = next y)
    (hprev : ∀ y ∈ h :: l, prev' y = prev y) : Ring next' prev' h l where
  fwd := by
    rw [hnext h List.mem_cons_self]
    exact hr.fwd.congr fun y hy => hnext y (List.mem_cons_of_mem h hy)
  bwd := by
    rw [hprev h List.mem_cons_self]
    exact hr.bwd.congr fun y hy => hprev y (List.mem_cons_of_mem h (List.mem_reverse.1 hy))
  nodup := hr.nodup

theorem Ring.empty (hnext : next h = h) (hprev : prev h = h) : Ring next prev h [] :=
  ⟨hnext, hprev, by simp⟩

theorem Ring.next_head (hr : Ring next prev h l) : next h = l.headD h := hr.fwd.eq_headD

theorem Ring.prev_head (hr : Ring next prev h l) : prev h = l.getLastD h := by
  rw [hr.bwd.eq_headD]
  rcases List.eq_nil_or_concat l with rfl | ⟨l, z, rfl⟩
  · rfl
  · simp

theorem Ring.next_eq (hr : Ring next prev h (A ++ x :: B)) : next x = B.headD h := hr.fwd.next_eq

theorem Ring.prev_eq (hr : Ring next prev h (A ++ x :: B)) : prev x = A.getLastD h := by
  have hb := hr.bwd
  rw [List.reverse_append, List.reverse_cons, List.append_assoc] at hb
  rw [hb.next_eq]
  rcases List.eq_nil_or_concat A with rfl | ⟨A, z, rfl⟩
  · rfl
  · simp

/-- A new node at the tail. -/
theorem Ring.add (hr : Ring next prev h l) (hn : n ∉ h :: l) :
    Ring (Function.update (Function.update next n h) (prev h) n)
      (Function.update (Function.update prev n (prev h)) h n) h (l ++ [n]) where
  fwd := by
    rw [hr.prev_head]
    exact hr.fwd.link_last hr.nodup hn
  bwd := by
    rw [List.reverse_append]
    exact hr.bwd.link_first (by simpa using hn) (by simpa using hr.head_not_mem)
  nodup := by
    have hd := hr.nodup
    rw [← List.cons_append, List.nodup_append]
    exact ⟨hd, List.nodup_singleton n, fun y hy z hz => by
      rintro rfl
      obtain rfl := List.mem_singleton.1 hz
      exact hn hy⟩

/-- The ring in the other direction. -/
theorem Ring.symm (hr : Ring next prev h l) : Ring prev next h l.reverse where
  fwd := hr.bwd
  bwd := by
    rw [List.reverse_reverse]
    exact hr.fwd
  nodup := nodup_reverse hr.nodup

/-- A new node at the head. -/
theorem Ring.addHead (hr : Ring next prev h l) (hn : n ∉ h :: l) :
    Ring (Function.update (Function.update next n (next h)) h n)
      (Function.update (Function.update prev n h) (next h) n) h (n :: l) := by
  have hadd := hr.symm.add (n := n) (by simpa using hn)
  simpa using hadd.symm

/-- A node that leaves. -/
theorem Ring.del (hr : Ring next prev h (A ++ x :: B)) :
    Ring (Function.update next (prev x) (next x)) (Function.update prev (next x) (prev x)) h
      (A ++ B) where
  fwd := by
    rw [hr.prev_eq]
    exact hr.fwd.unlink hr.nodup
  bwd := by
    have hb := hr.bwd
    have hd := nodup_reverse hr.nodup
    have hlast : B.reverse.getLastD h = next x := by
      rw [hr.next_eq]
      cases B <;> simp
    rw [List.reverse_append, List.reverse_cons, List.append_assoc] at hb hd
    rw [List.reverse_append, ← hlast]
    exact hb.unlink hd
  nodup := hr.nodup.sublist (((List.sublist_cons_self x B).append_left A).cons_cons h)

theorem Ring.next_ne (hr : Ring next prev h (A ++ x :: B)) : next x ≠ x := by
  have hd := hr.nodup
  rw [hr.next_eq]
  cases B with
  | nil =>
    rintro rfl
    simp at hd
  | cons y B =>
    rintro rfl
    simp [List.nodup_append] at hd

theorem Ring.next_head_ne (hr : Ring next prev h l) (hx : next h = x) (hne : x ≠ h) :
    next x ≠ x := by
  rw [hr.next_head] at hx
  cases l with
  | nil => exact absurd hx.symm hne
  | cons y l =>
    obtain rfl : y = x := hx
    exact hr.next_ne (A := [])

theorem Ring.next_mem (hr : Ring next prev h l) (hx : x ∈ h :: l) : next x ∈ h :: l := by
  rcases List.mem_cons.1 hx with rfl | hx
  · rw [hr.next_head]
    cases l <;> simp
  · obtain ⟨A, B, rfl⟩ := List.append_of_mem hx
    rw [hr.next_eq]
    cases B <;> simp

theorem Ring.head_prev_mem (hr : Ring next prev h l) : prev h ∈ h :: l := by
  rw [hr.prev_head]
  rcases List.eq_nil_or_concat l with rfl | ⟨l, z, rfl⟩ <;> simp

theorem Ring.next_prev_head (hr : Ring next prev h l) : next (prev h) = h := by
  rw [hr.prev_head]
  rcases List.eq_nil_or_concat l with rfl | ⟨l, z, rfl⟩
  · exact hr.next_head
  · rw [List.concat_eq_append] at *
    rw [List.getLastD_concat]
    exact hr.next_eq

/-! ## Where the links lead -/

/-- At least one step along the links leads from `h` to `n`. -/
def Reach (next : ℕ → ℕ) : ℕ → ℕ → Prop := Relation.TransGen fun a b => next a = b

theorem Chain.reach (hc : Chain next a l e) {y : ℕ} (hy : y ∈ l ++ [e]) :
    Relation.ReflTransGen (fun a b => next a = b) a y := by
  induction l generalizing a with
  | nil =>
    obtain rfl : a = e := hc
    obtain rfl : y = a := by simpa using hy
    exact .refl
  | cons x l ih =>
    obtain ⟨rfl, hc⟩ := hc
    rw [List.cons_append, List.mem_cons] at hy
    rcases hy with rfl | hy
    · exact .refl
    · exact .head rfl (ih hc hy)

theorem Ring.reach_iff (hr : Ring next prev h l) : Reach next h n ↔ n ∈ h :: l := by
  constructor
  · intro hn
    induction hn with
    | single hab => exact hab ▸ hr.next_mem List.mem_cons_self
    | tail _ hbc ih => exact hbc ▸ hr.next_mem ih
  · intro hn
    refine Relation.TransGen.head' (r := fun a b => next a = b) (b := next h) rfl (hr.fwd.reach ?_)
    rw [List.mem_append, List.mem_singleton]
    exact (List.mem_cons.1 hn).symm

section

variable {z k y : ℕ} (hz : next z = h) (hk : k ≠ n) (hn : ¬Reach next k n)

include hz hk hn

/-- A node queued between `z` and `h` leads nowhere new. -/
theorem Reach.of_add (hy : Reach (Function.update (Function.update next n h) z n) k y) :
    y = n ∨ Reach next k y := by
  have hboth : y = n ∧ Reach next k h ∨ Reach next k y := by
    induction hy with
    | @single b hab =>
      by_cases hkz : k = z
      · subst hkz
        rw [Function.update_self] at hab
        exact Or.inl ⟨hab.symm, .single hz⟩
      · rw [Function.update_of_ne hkz, Function.update_of_ne hk] at hab
        exact Or.inr (.single hab)
    | @tail a b _ hab ih =>
      by_cases haz : a = z
      · subst haz
        rw [Function.update_self] at hab
        refine Or.inl ⟨hab.symm, ?_⟩
        rcases ih with ⟨-, hh⟩ | ha
        · exact hh
        · exact .tail ha hz
      · rw [Function.update_of_ne haz] at hab
        by_cases han : a = n
        · subst han
          rw [Function.update_self] at hab
          subst hab
          rcases ih with ⟨-, hh⟩ | ha
          · exact Or.inr hh
          · exact absurd ha hn
        · rw [Function.update_of_ne han] at hab
          exact Or.inr (.tail (ih.resolve_left fun h => han h.1) hab)
  exact hboth.imp_left And.left

/-- A node queued between `z` and `h` cuts nothing off. -/
theorem Reach.add (hy : Reach next k y) :
    Reach (Function.update (Function.update next n h) z n) k y := by
  have hedge {a : ℕ} (ha : a ≠ n) :
      Reach (Function.update (Function.update next n h) z n) a (next a) := by
    by_cases haz : a = z
    · subst haz
      rw [hz]
      refine .tail (.single (Function.update_self _ _ _)) ?_
      rw [Function.update_of_ne (Ne.symm ha), Function.update_self]
    · apply Relation.TransGen.single
      rw [Function.update_of_ne haz, Function.update_of_ne ha]
  induction hy with
  | single hab => exact hab ▸ hedge hk
  | @tail a b hka hab ih =>
    apply ih.trans
    rw [← hab]
    apply hedge
    rintro rfl
    exact hn hka

end

end Chains
