import Mathlib.Data.List.Perm.Basic
import Mathlib.Logic.Function.Basic

/-! Singly linked lists in one array of links, with a link that is the end of
all lists. -/

namespace Libzorpll.LinkArray

variable {ι : Type}

def Threads (next : ι → ι) (eol : ι) : ι → List ι → Prop
  | start, [] => start = eol
  | start, i :: l => start = i ∧ i ≠ eol ∧ Threads next eol (next i) l

/-- What a pointer to the previous link is after it went along a list. -/
def behind (prev : Option ι) (l : List ι) : Option ι := l.foldl (fun _ i => some i) prev

section

variable [DecidableEq ι]

/-- Goes along the links to an index where it is to stop, or to the end, with
the index before it. Only valid indices have a link. -/
def walk (next : ι → ι) (eol : ι) (valid stop : ι → Bool) :
    Nat → Option ι → ι → Option (Option ι × ι)
  | 0, _, _ => none
  | rounds + 1, prev, cur =>
      if cur = eol then some (prev, cur)
      else if valid cur then
        if stop cur then some (prev, cur) else walk next eol valid stop rounds (some cur) (next cur)
      else none

/-- The links and the start of a list, without an index and with the one
before it, if it is not the first. -/
def unlink (next : ι → ι) (start i : ι) : Option ι → (ι → ι) × ι
  | none => (next, next i)
  | some j => (Function.update next j (next i), start)

end

variable {next next' : ι → ι} {eol start i j : ι} {l l₁ l₂ : List ι}

theorem Threads.congr (h : Threads next eol start l) (hsame : ∀ i ∈ l, next' i = next i) :
    Threads next' eol start l := by
  induction l generalizing start with
  | nil => exact h
  | cons i l ih =>
      obtain ⟨hstart, hne, hrest⟩ := h
      refine ⟨hstart, hne, ?_⟩
      rw [hsame i List.mem_cons_self]
      exact ih hrest fun j hj => hsame j (List.mem_cons_of_mem _ hj)

variable [DecidableEq ι]

theorem Threads.update (h : Threads next eol start l) (hi : i ∉ l) (link : ι) :
    Threads (Function.update next i link) eol start l :=
  h.congr fun j hj => Function.update_of_ne (fun hji : j = i => hi (hji ▸ hj)) link next

theorem Threads.push (h : Threads next eol start l) (hi : i ∉ l) (hne : i ≠ eol) :
    Threads (Function.update next i start) eol i (i :: l) := by
  refine ⟨rfl, hne, ?_⟩
  rw [Function.update_self]
  exact h.update hi start

/-- A list goes on behind an index that is not in it any more. -/
theorem Threads.unlink_inner (h : Threads next eol start (l₁ ++ j :: i :: l₂))
    (hnodup : (l₁ ++ j :: i :: l₂).Nodup) :
    Threads (Function.update next j (next i)) eol start (l₁ ++ j :: l₂) := by
  induction l₁ generalizing start with
  | nil =>
      obtain ⟨hstart, hne, -, -, hrest⟩ := h
      refine ⟨hstart, hne, ?_⟩
      rw [Function.update_self]
      exact hrest.update (fun hj => (List.nodup_cons.mp hnodup).1 (List.mem_cons_of_mem _ hj)) _
  | cons k l₁ ih =>
      obtain ⟨hstart, hne, hrest⟩ := h
      obtain ⟨hk, hnodup⟩ := List.nodup_cons.mp hnodup
      have hkj : k ≠ j := fun hkj => hk (List.mem_append_right _ (hkj ▸ List.mem_cons_self))
      refine ⟨hstart, hne, ?_⟩
      rw [Function.update_of_ne hkj]
      exact ih hrest hnodup

theorem Threads.unlink (h : Threads next eol start (l₁ ++ i :: l₂)) (hnodup : (l₁ ++ i :: l₂).Nodup) :
    Threads (unlink next start i (behind none l₁)).1 eol (unlink next start i (behind none l₁)).2 (l₁ ++ l₂) := by
  obtain rfl | ⟨l, j, rfl⟩ := List.eq_nil_or_concat l₁
  · exact h.2.2
  · rw [List.concat_eq_append] at h hnodup ⊢
    rw [List.append_assoc, List.singleton_append] at h hnodup ⊢
    rw [behind, List.foldl_append]
    exact h.unlink_inner hnodup

/-- Links outside of the list stay. -/
theorem unlink_of_not_mem (hj : j ∉ l₁) (start i : ι) :
    (LinkArray.unlink next start i (behind none l₁)).1 j = next j := by
  obtain rfl | ⟨l, k, rfl⟩ := List.eq_nil_or_concat l₁
  · rfl
  · rw [List.concat_eq_append] at hj ⊢
    rw [behind, List.foldl_append]
    have hjk : j ≠ k := fun hjk => hj (List.mem_append_right _ (hjk ▸ List.mem_singleton_self j))
    exact Function.update_of_ne hjk _ next

variable {valid stop : ι → Bool} {rounds : Nat}

theorem walk_finds (h : Threads next eol start (l₁ ++ i :: l₂)) (hvalid : ∀ j ∈ l₁ ++ [i], valid j = true)
    (hgo : ∀ j ∈ l₁, stop j = false) (hstop : stop i = true) (hrounds : l₁.length < rounds) (prev : Option ι) :
    walk next eol valid stop rounds prev start = some (behind prev l₁, i) := by
  induction l₁ generalizing start rounds prev with
  | nil =>
      obtain ⟨rounds, rfl⟩ := Nat.exists_eq_succ_of_ne_zero (Nat.ne_of_gt hrounds)
      obtain ⟨rfl, hne, -⟩ := h
      rw [walk, if_neg hne, if_pos (hvalid _ (List.mem_singleton_self _)), if_pos hstop]
      rfl
  | cons j l₁ ih =>
      obtain ⟨rounds, rfl⟩ := Nat.exists_eq_succ_of_ne_zero (Nat.ne_of_gt (Nat.zero_lt_of_lt hrounds))
      obtain ⟨rfl, hne, hrest⟩ := h
      rw [walk, if_neg hne, if_pos (hvalid _ List.mem_cons_self),
        if_neg (Bool.eq_false_iff.mp (hgo _ List.mem_cons_self))]
      exact ih hrest (fun k hk => hvalid k (List.mem_cons_of_mem _ hk))
        (fun k hk => hgo k (List.mem_cons_of_mem _ hk)) (Nat.lt_of_succ_lt_succ hrounds) _

theorem walk_ends (h : Threads next eol start l) (hvalid : ∀ j ∈ l, valid j = true)
    (hgo : ∀ j ∈ l, stop j = false) (hrounds : l.length < rounds) (prev : Option ι) :
    walk next eol valid stop rounds prev start = some (behind prev l, eol) := by
  induction l generalizing start rounds prev with
  | nil =>
      obtain ⟨rounds, rfl⟩ := Nat.exists_eq_succ_of_ne_zero (Nat.ne_of_gt hrounds)
      obtain rfl : start = eol := h
      rw [walk, if_pos rfl]
      rfl
  | cons j l ih =>
      obtain ⟨rounds, rfl⟩ := Nat.exists_eq_succ_of_ne_zero (Nat.ne_of_gt (Nat.zero_lt_of_lt hrounds))
      obtain ⟨rfl, hne, hrest⟩ := h
      rw [walk, if_neg hne, if_pos (hvalid _ List.mem_cons_self),
        if_neg (Bool.eq_false_iff.mp (hgo _ List.mem_cons_self))]
      exact ih hrest (fun k hk => hvalid k (List.mem_cons_of_mem _ hk))
        (fun k hk => hgo k (List.mem_cons_of_mem _ hk)) (Nat.lt_of_succ_lt_succ hrounds) _

omit [DecidableEq ι]

/-- Several lists where one of them has one element more. -/
theorem flatMap_perm_cons {κ : Type} {f g : κ → List ι} {ks : List κ} {k : κ} (hk : k ∈ ks) (hks : ks.Nodup)
    (hself : (g k).Perm (i :: f k)) (hothers : ∀ m ∈ ks, m ≠ k → g m = f m) :
    (ks.flatMap g).Perm (i :: ks.flatMap f) := by
  induction ks with
  | nil => cases hk
  | cons m ks ih =>
      obtain ⟨hm, hks⟩ := List.nodup_cons.mp hks
      rw [List.flatMap_cons, List.flatMap_cons]
      obtain rfl | hk := List.mem_cons.mp hk
      · have hrest : ks.flatMap g = ks.flatMap f := by
          rw [List.flatMap_def, List.flatMap_def]
          congr 1
          exact List.map_congr_left fun n hn =>
            hothers n (List.mem_cons_of_mem _ hn) fun hnk => hm (hnk ▸ hn)
        rw [hrest]
        exact hself.append_right _
      · have hmk : m ≠ k := fun hmk => hm (hmk ▸ hk)
        rw [hothers m List.mem_cons_self hmk]
        refine ((ih hk hks fun n hn => hothers n (List.mem_cons_of_mem _ hn)).append_left _).trans ?_
        exact List.perm_middle

end Libzorpll.LinkArray
