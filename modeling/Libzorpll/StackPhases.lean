import Libzorpll.StackSteps

/-! Whether the structure of a stack is held or taken apart. -/

namespace Libzorpll.StackPhases

open StackLife StackHeld StackSteps Debts

variable {T : Type} {es : List (Event T)} {s : Stack T} {a : Option T} {f g : Frame} {rest frames todo : List Frame}
  {i : Nat} {poll : Bool}

/-! Lists of frames -/

theorem needs_owed (htailed : Tailed todo) (hmem : g ∈ todo) (hneeds : needs g = true) : 0 < owed (owes 0) todo := by
  induction todo with
  | nil => cases hmem
  | cons f rest ih =>
      have hnonneg := owes_nonneg 0 f
      rw [owed_cons]
      rcases List.mem_cons.mp hmem with rfl | hmem
      · have hpos := htailed.1 hneeds
        omega
      · have hpos := ih htailed.2 hmem
        omega

/-- What a frame leaves can rely on what the frame relied on. -/
theorem tailed_close (h : Tailed (.close i :: rest)) : Tailed (.close (i + 1) :: .structUnref i :: rest) := by
  obtain ⟨hneeds, hrest⟩ := h
  have hnonneg := owed_nonneg (owes_nonneg 0) rest
  cases i with
  | zero =>
      refine ⟨fun _ => ?_, nofun, hrest⟩
      simp [owes]
      omega
  | succ i =>
      have hpos := hneeds rfl
      refine ⟨fun _ => ?_, fun _ => hpos, hrest⟩
      simp [owes]
      exact hpos

theorem tailed_structUnref (h : needs (.close i) = true → 0 < owed (owes 0) rest) (hrest : Tailed rest) :
    Tailed (.structUnref i :: rest) := by
  cases i with
  | zero => exact ⟨nofun, hrest⟩
  | succ i => exact ⟨fun _ => h rfl, hrest⟩

theorem tailed_detach (h : Tailed (.detach i :: rest)) : Tailed (.descend i :: .structUnref i :: rest) := by
  obtain ⟨hneeds, hrest⟩ := h
  have hnonneg := owed_nonneg (owes_nonneg 0) rest
  cases i with
  | zero =>
      refine ⟨fun _ => ?_, nofun, hrest⟩
      simp [owes]
      omega
  | succ i =>
      have hpos := hneeds rfl
      refine ⟨fun _ => ?_, fun _ => hpos, hrest⟩
      simp [owes]
      exact hpos

theorem inDispatch_rest (h : InDispatch (f :: rest)) (hrest : rest ≠ []) (frames : List Frame) :
    InDispatch (frames ++ rest) := by
  obtain ⟨i, poll, hlast⟩ := h
  obtain ⟨g, rest', rfl⟩ := List.exists_cons_of_ne_nil hrest
  refine ⟨i, poll, ?_⟩
  rw [List.getLast?_append_cons]
  rw [List.getLast?_cons_cons] at hlast
  exact hlast

theorem inDispatch_ne_nil (h : InDispatch (f :: rest)) (hf : ∀ i poll, f ≠ .release i poll) : rest ≠ [] := by
  rintro rfl
  obtain ⟨i, poll, hlast⟩ := h
  exact hf i poll (Option.some.inj hlast)

theorem inDispatch_mem (h : InDispatch todo) : ∃ i poll, .release i poll ∈ todo := by
  obtain ⟨i, poll, hlast⟩ := h
  exact ⟨i, poll, List.mem_of_getLast? hlast⟩

theorem quiet_cons (h : Quiet (f :: rest)) : Quiet rest := fun g hg => h g (List.mem_cons_of_mem f hg)

/-! z_stream_source_grab_ref -/

theorem grabRef_source {called : Nat → Bool} {streams : Streams} {own : Bool} {top : Nat}
    (h : grabRef called streams i own = some top) : (streams i).source = true := by
  have hpasses : passes called streams i own = true := by
    cases i with
    | zero =>
        rw [grabRef] at h
        by_contra hnot
        rw [if_neg hnot] at h
        cases h
    | succ i =>
        rw [grabRef] at h
        by_contra hnot
        rw [if_neg hnot] at h
        cases h
  rw [passes, Bool.and_eq_true] at hpasses
  exact hpasses.1

theorem grabRef_top {called : Nat → Bool} {streams : Streams} {own : Bool} {top : Nat}
    (hparent : ∀ p, p < i → (streams (p + 1)).parent = true) (h : grabRef called streams i own = some top) : top = 0 := by
  induction i generalizing own with
  | zero =>
      rw [grabRef] at h
      split at h
      · exact (Option.some.inj h).symm
      · cases h
  | succ i ih =>
      rw [grabRef, if_pos (hparent i (Nat.lt_succ_self i))] at h
      split at h
      · exact ih (fun p hp => hparent p (Nat.lt_succ_of_lt hp)) h
      · cases h

theorem walked_le {called : Nat → Bool} {streams : Streams} {own : Bool} {j : Nat} (h : j ∈ walked called streams i own) :
    j ≤ i := by
  induction i generalizing own with
  | zero =>
      rw [walked, List.mem_singleton] at h
      exact Nat.le_of_eq h
  | succ i ih =>
      rw [walked] at h
      split at h
      · rcases List.mem_cons.mp h with rfl | h
        · exact Nat.le_refl _
        · exact Nat.le_succ_of_le (ih h)
      · rw [List.mem_singleton] at h
        exact Nat.le_of_eq h

theorem walked_source {called : Nat → Bool} {streams : Streams} {own : Bool} {j : Nat} (h : j ∈ walked called streams i own)
    (hj : j ≠ i) : (streams i).source = true := by
  cases i with
  | zero =>
      rw [walked, List.mem_singleton] at h
      exact absurd h hj
  | succ i =>
      rw [walked] at h
      split at h
      · rename_i hpasses
        rw [Bool.and_eq_true, passes, Bool.and_eq_true] at hpasses
        exact hpasses.1.1
      · rw [List.mem_singleton] at h
        exact absurd h hj

/-! The phases -/

variable [DecidableEq T]

theorem whole_run (h : Whole s) (htodo : s.todo a = f :: rest) {streams : Streams} (hheld : 0 < (streams 0).structRef)
    (hchild : ∀ j, (streams j).child = (s.streams j).child) (htailed : Tailed (frames ++ rest))
    (hunlink : ∀ k, .unlink k ∉ frames) : Whole (setTodo a (frames ++ rest) { s with streams := streams }) where
  held := hheld
  linked j hj := (hchild j).trans (h.linked j hj)
  tailed b := by
    by_cases hb : b = a
    · rw [hb, todo_setTodo]
      exact htailed
    · rw [todo_other hb]
      exact h.tailed b
  unlinks b k hmem := by
    rcases mem_run htodo hmem with ⟨-, hmem⟩ | hmem
    · exact hunlink k hmem
    · exact h.unlinks b k hmem

omit [DecidableEq T] in
theorem whole_rest (h : Whole s) (htodo : s.todo a = f :: rest) : Tailed rest := by
  have htailed := h.tailed a
  rw [htodo] at htailed
  exact htailed.2

/-- A frame that does not use the structure leaves it as it is. -/
theorem phase_drop (h : Phase s) (htodo : s.todo a = f :: rest) (hf : structural f = false) {streams : Streams}
    (hstruct : ∀ j, (streams j).structRef = (s.streams j).structRef) (hchild : ∀ j, (streams j).child = (s.streams j).child)
    (hsource : ∀ j, (streams j).source = (s.streams j).source) :
    Phase (setTodo a ([] ++ rest) { s with streams := streams }) := by
  have hover (hover : Over s) : Over (setTodo a ([] ++ rest) { s with streams := streams }) :=
    ⟨hover.closed, hover.detached, fun j hj => (hsource j).trans (hover.sources j hj)⟩
  have hcut {k : Nat} (hcut : Cut k s) : Cut k (setTodo a ([] ++ rest) { s with streams := streams }) :=
    fun j hj => (hchild j).trans (hcut j hj)
  have hquiet {b : Option T} (hquiet : Quiet (s.todo b)) :
      Quiet ((setTodo a ([] ++ rest) { s with streams := streams }).todo b) := by
    intro g hg
    rcases mem_run htodo hg with ⟨-, hg⟩ | hg
    · cases hg
    · exact hquiet g hg
  have hother {b : Option T} {g : Frame} {rest' : List Frame} (htodo' : s.todo b = g :: rest') (hg : structural g = true) :
      (setTodo a ([] ++ rest) { s with streams := streams }).todo b = g :: rest' := by
    have hb : b ≠ a := by
      rintro rfl
      rw [htodo'] at htodo
      rw [(List.cons.inj htodo).1, hf] at hg
      cases hg
    rw [todo_other hb]
    exact htodo'
  cases h with
  | whole h =>
      refine .whole (whole_run h htodo ?_ hchild (whole_rest h htodo) fun k => List.not_mem_nil)
      rw [hstruct]
      exact h.held
  | breaking k b rest' hk hover' hcut' htodo' hrest hothers =>
      exact .breaking k b rest' hk (hover hover') (hcut hcut') (hother htodo' rfl) hrest fun c hc => hquiet (hothers c hc)
  | passing k b rest' hk hdepth hover' hcut' htodo' hunref hrest hothers =>
      exact .passing k b rest' hk hdepth (hover hover') (hcut hcut') (hother htodo' rfl) hunref hrest
        fun c hc => hquiet (hothers c hc)
  | broken hover' hcut' hquiet' => exact .broken (hover hover') (hcut hcut') fun c => hquiet (hquiet' c)

variable [Fintype T]

/-- Where the last reference to the structure is given back, nobody else uses
it. -/
theorem over_of_last (hcounted : Counted s) (hsourced : Sourced s) (hwhole : Whole s)
    (htodo : s.todo a = .structUnref 0 :: rest) (hlast : (s.streams 0).structRef - 1 = 0) :
    Over s ∧ Quiet rest ∧ ∀ b, b ≠ a → Quiet (s.todo b) := by
  have hstruct := hcounted.structs 0 (Nat.zero_le _)
  have hmem : .structUnref 0 ∈ s.todo a := htodo ▸ List.mem_cons_self
  have hdebt := debt_pos (owes_nonneg 0) hmem (w := owes 0) Int.one_pos
  have hopen := one_nonneg s.isOpen
  have hsource := one_nonneg (s.streams 0).source
  have hlink : one (linkAbove s.streams 0) = 0 := rfl
  have hclosed : s.isOpen = false := by
    cases hopen' : s.isOpen with
    | false => rfl
    | true =>
        rw [hopen', hlink, one, if_pos rfl] at hstruct
        omega
  have hnone : (s.streams 0).source = false := by
    cases hsource' : (s.streams 0).source with
    | false => rfl
    | true =>
        rw [hsource', hlink] at hstruct
        change _ = one s.isOpen + 0 + 1 + _ at hstruct
        omega
  have hdetached : s.attached = false := by
    cases hattached : s.attached with
    | false => rfl
    | true => exact Bool.noConfusion (hnone.symm.trans (hsourced.attached hattached 0 (Nat.zero_le _)))
  have hle : debt (owes 0) s.todo ≤ 1 := by omega
  obtain ⟨hrest, hothers⟩ := alone (owes_nonneg 0) hle htodo Int.one_pos
  have hquiet {todo : List Frame} {b : Option T} (htailed : Tailed todo) (howes : ∀ g ∈ todo, owes 0 g = 0)
      (hin : ∀ g ∈ todo, g ∈ s.todo b) : Quiet todo := by
    intro g hg
    have hneeds : needs g = false := by
      refine Bool.eq_false_of_not_eq_true fun hneeds => ?_
      have hpos := needs_owed htailed hg hneeds
      rw [owed_eq_zero howes] at hpos
      exact absurd hpos (Int.lt_irrefl 0)
    have hno := howes g hg
    cases g with
    | close i => cases i with
        | zero => cases hno
        | succ => cases hneeds
    | structUnref i => cases i with
        | zero => cases hno
        | succ => cases hneeds
    | detach i => cases i with
        | zero =>
            have htrue := hsourced.detach b 0 (hin _ hg) 0 (Nat.zero_le _)
            rw [hnone] at htrue
            cases htrue
        | succ => cases hneeds
    | unlink k => exact absurd (hin _ hg) (hwhole.unlinks b k)
    | descend | callback | inCallback => cases hneeds
    | _ => rfl
  have hqrest : Quiet rest := hquiet (whole_rest hwhole htodo) hrest fun g hg => htodo ▸ List.mem_cons_of_mem _ hg
  have hqothers : ∀ b, b ≠ a → Quiet (s.todo b) := fun b hb => hquiet (hwhole.tailed b) (hothers b hb) fun _ hg => hg
  refine ⟨⟨hclosed, hdetached, hsourced.finished hdetached (debt_eq_zero fun b g hg => ?_)⟩, hqrest, hqothers⟩
  have hstructural : structural g = false ∨ g = .structUnref 0 := by
    by_cases hb : b = a
    · rw [hb, htodo] at hg
      rcases List.mem_cons.mp hg with rfl | hg
      · exact .inr rfl
      · exact .inl (hqrest g hg)
    · exact .inl (hqothers b hb g hg)
  rcases hstructural with hno | rfl
  · cases g with
    | detach | descend => cases hno
    | _ => rfl
  · rfl

omit [DecidableEq T] in
/-- A stream that has another above it is held by that. -/
theorem structRef_linked (hcounted : Counted s) (htodo : s.todo a = .structUnref (i + 1) :: rest) (hi : i + 1 ≤ s.depth)
    (hchild : (s.streams i).child = true) : (s.streams (i + 1)).structRef - 1 ≠ 0 := by
  have hstruct := hcounted.structs (i + 1) hi
  have hmem : .structUnref (i + 1) ∈ s.todo a := htodo ▸ List.mem_cons_self
  have hdebt := debt_pos (owes_nonneg (i + 1)) hmem (by simp [owes])
  have hopen := one_nonneg s.isOpen
  have hsource := one_nonneg (s.streams (i + 1)).source
  rw [linkAbove, hchild, show one true = 1 from rfl] at hstruct
  omega

theorem owes_quiet (hg : structural g = false) : owes i g = 0 := by
  cases g with
  | close | structUnref => cases hg
  | _ => rfl

/-- Who takes the structure apart has the only reference to the next stream's. -/
theorem structRef_passing (hcounted : Counted s) (hover : Over s) (hi : 0 < i) (hdepth : i ≤ s.depth) (hcut : Cut i s)
    (htodo : s.todo a = .structUnref i :: rest) (hrest : Quiet rest) (hothers : ∀ b, b ≠ a → Quiet (s.todo b)) :
    (s.streams i).structRef - 1 = 0 := by
  have hstruct := hcounted.structs i hdepth
  have hupdate := debt_update (owes i) s.todo a rest
  have hnothing : debt (owes i) (Function.update s.todo a rest) = 0 := by
    refine debt_eq_zero fun b g hg => owes_quiet ?_
    by_cases hb : b = a
    · rw [hb, Function.update_self] at hg
      exact hrest g hg
    · rw [Function.update_of_ne hb] at hg
      exact hothers b hb g hg
  have hself : owes i (.structUnref i) = 1 := if_pos rfl
  have hlink : linkAbove s.streams i = false := by
    obtain ⟨k, rfl⟩ := Nat.exists_eq_succ_of_ne_zero (Nat.ne_of_gt hi)
    exact (hcut k hdepth).trans (decide_eq_false (Nat.not_succ_le_self k))
  rw [hnothing, htodo, owed_cons, hself] at hupdate
  rw [hover.closed, hover.sources i hdepth, hlink, show one false = 0 from rfl] at hstruct
  omega

omit [DecidableEq T] [Fintype T] in
theorem struct_cases (h : Phase s) (htodo : s.todo a = .structUnref i :: rest) :
    Whole s ∨ (0 < i ∧ Over s ∧ Cut i s ∧ .unref i ∈ rest ∧ Quiet rest ∧ ∀ b, b ≠ a → Quiet (s.todo b)) := by
  have hnot {todo : List Frame} (hquiet : Quiet todo) (htodo : todo = .structUnref i :: rest) : False := by
    have hno := hquiet (.structUnref i) (htodo ▸ List.mem_cons_self)
    cases hno
  cases h with
  | whole h => exact .inl h
  | breaking k b rest' hk hover hcut htodo' hrest hothers =>
      by_cases hab : a = b
      · rw [hab, htodo'] at htodo
        cases htodo
      · exact (hnot (hothers a hab) htodo).elim
  | passing k b rest' hk hdepth hover hcut htodo' hunref hrest hothers =>
      by_cases hab : a = b
      · subst hab
        rw [htodo'] at htodo
        cases htodo
        exact .inr ⟨hk, hover, hcut, hunref, hrest, hothers⟩
      · exact (hnot (hothers a hab) htodo).elim
  | broken hover hcut hquiet => exact (hnot (hquiet a) htodo).elim

omit [DecidableEq T] [Fintype T] in
theorem unlink_cases (h : Phase s) (htodo : s.todo a = .unlink i :: rest) :
    i < s.depth ∧ Over s ∧ Cut i s ∧ Quiet rest ∧ ∀ b, b ≠ a → Quiet (s.todo b) := by
  have hnot {todo : List Frame} (hquiet : Quiet todo) (htodo : todo = .unlink i :: rest) : False := by
    have hno := hquiet (.unlink i) (htodo ▸ List.mem_cons_self)
    cases hno
  cases h with
  | whole h => exact absurd (htodo ▸ List.mem_cons_self) (h.unlinks a i)
  | breaking k b rest' hk hover hcut htodo' hrest hothers =>
      by_cases hab : a = b
      · subst hab
        rw [htodo'] at htodo
        cases htodo
        exact ⟨hk, hover, hcut, hrest, hothers⟩
      · exact (hnot (hothers a hab) htodo).elim
  | passing k b rest' hk hdepth hover hcut htodo' hunref hrest hothers =>
      by_cases hab : a = b
      · rw [hab, htodo'] at htodo
        cases htodo
      · exact (hnot (hothers a hab) htodo).elim
  | broken hover hcut hquiet => exact (hnot (hquiet a) htodo).elim

omit [Fintype T] in
theorem unbroken_run (hwhole : Whole s) (htodo : s.todo a = .structUnref i :: rest)
    (hheld : i = 0 → (s.streams 0).structRef - 1 ≠ 0) :
    Whole (setTodo a ([] ++ rest) { s with streams := modify i (fun p => { p with structRef := p.structRef - 1 }) s.streams }) := by
  refine whole_run hwhole htodo ?_ (fun j => by rw [structUnref_eq]) (whole_rest hwhole htodo) fun k => List.not_mem_nil
  have hpos := hwhole.held
  rw [structUnref_eq]
  simp only
  split
  · rename_i hzero
    have hne := hheld hzero.symm
    omega
  · omega

omit [Fintype T] in
theorem quiet_others {b : Option T} (hb : b ≠ a) (hquiet : Quiet (s.todo b)) (todo : List Frame) (streams : Streams) :
    Quiet ((setTodo a todo { s with streams := streams }).todo b) := by
  rw [todo_other hb]
  exact hquiet

/-- The last reference to a structure where nothing is below, or not the last
one. -/
theorem phase_structUnref (hcounted : Counted s) (hsourced : Sourced s) (h : Phase s) (hi : i ≤ s.depth)
    (htodo : s.todo a = .structUnref i :: rest) (hnot : ¬((s.streams i).structRef - 1 = 0 ∧ (s.streams i).child = true)) :
    Phase (setTodo a ([] ++ rest) { s with streams := modify i (fun p => { p with structRef := p.structRef - 1 }) s.streams }) := by
  have hbroken (hlast : (s.streams i).structRef - 1 = 0) (hover : Over s) (hcut : Cut i s) (hrest : Quiet rest)
      (hothers : ∀ b, b ≠ a → Quiet (s.todo b)) :
      Phase (setTodo a ([] ++ rest) { s with streams := modify i (fun p => { p with structRef := p.structRef - 1 }) s.streams }) := by
    have hdepth : s.depth = i := by
      by_contra hne
      have hchild := hcut i (by omega)
      rw [decide_eq_true (Nat.le_refl i)] at hchild
      exact hnot ⟨hlast, hchild⟩
    refine .broken ⟨hover.closed, hover.detached, fun j hj => ?_⟩ (fun j hj => ?_) fun b => ?_
    · change (modify i _ s.streams j).source = false
      rw [structUnref_eq]
      exact hover.sources j hj
    · change (modify i _ s.streams j).child = decide (s.depth ≤ j)
      rw [structUnref_eq, hdepth]
      exact hcut j hj
    · by_cases hb : b = a
      · rw [hb, todo_setTodo]
        exact hrest
      · exact quiet_others hb (hothers b hb) _ _
  rcases struct_cases h htodo with hwhole | ⟨hpos, hover, hcut, -, hrest, hothers⟩
  · cases i with
    | zero =>
        by_cases hlast : (s.streams 0).structRef - 1 = 0
        · obtain ⟨hover, hrest, hothers⟩ := over_of_last hcounted hsourced hwhole htodo hlast
          exact hbroken hlast hover (fun j hj => hwhole.linked j hj) hrest hothers
        · exact .whole (unbroken_run hwhole htodo fun _ => hlast)
    | succ i => exact .whole (unbroken_run hwhole htodo nofun)
  · exact hbroken (structRef_passing hcounted hover hpos hi hcut htodo hrest hothers) hover hcut hrest hothers

/-- The last reference to a structure where something is below. -/
theorem phase_break (hcounted : Counted s) (hsourced : Sourced s) (h : Phase s) (hi : i ≤ s.depth)
    (htodo : s.todo a = .structUnref i :: rest) (hlast : (s.streams i).structRef - 1 = 0) (hchild : (s.streams i).child = true) :
    Phase (setTodo a ([.unlink i, .unref (i + 1)] ++ rest)
      { s with streams := streamRef (i + 1) (modify i (fun p => { p with structRef := p.structRef - 1 }) s.streams) }) := by
  have hlt : i < s.depth := by
    refine Nat.lt_of_le_of_ne hi fun hdepth => ?_
    rw [hdepth, hcounted.last] at hchild
    cases hchild
  have hbreaking (hover : Over s) (hcut : Cut i s) (hrest : Quiet rest) (hothers : ∀ b, b ≠ a → Quiet (s.todo b)) :
      Phase (setTodo a ([.unlink i, .unref (i + 1)] ++ rest)
        { s with streams := streamRef (i + 1) (modify i (fun p => { p with structRef := p.structRef - 1 }) s.streams) }) := by
    refine .breaking i a (.unref (i + 1) :: rest) hlt ⟨hover.closed, hover.detached, fun j hj => ?_⟩ (fun j hj => ?_)
      (todo_setTodo _ _ _) (List.forall_mem_cons.mpr ⟨rfl, hrest⟩) fun b hb => quiet_others hb (hothers b hb) _ _
    · change (streamRef _ _ j).source = false
      rw [streamRef_eq, structUnref_eq]
      exact hover.sources j hj
    · change (streamRef _ _ j).child = _
      rw [streamRef_eq, structUnref_eq]
      exact hcut j hj
  rcases struct_cases h htodo with hwhole | ⟨hpos, hover, hcut, -, hrest, hothers⟩
  · cases i with
    | zero =>
        obtain ⟨hover, hrest, hothers⟩ := over_of_last hcounted hsourced hwhole htodo hlast
        exact hbreaking hover (fun j hj => hwhole.linked j hj) hrest hothers
    | succ i => exact absurd hlast (structRef_linked hcounted htodo hi (hwhole.linked i hi))
  · exact hbreaking hover hcut hrest hothers

omit [Fintype T] in
theorem phase_unlink (h : Phase s) (htodo : s.todo a = .unlink i :: rest) :
    Phase (setTodo a ([.structUnref (i + 1), .unref (i + 1), .unref i] ++ rest)
      { s with streams := modify i (fun p => { p with child := false })
                            (modify (i + 1) (fun p => { p with parent := false }) s.streams) }) := by
  obtain ⟨hlt, hover, hcut, hrest, hothers⟩ := unlink_cases h htodo
  refine .passing (i + 1) a (.unref (i + 1) :: .unref i :: rest) (Nat.succ_pos i) hlt
    ⟨hover.closed, hover.detached, fun j hj => ?_⟩ (fun j hj => ?_) (todo_setTodo _ _ _) List.mem_cons_self
    (List.forall_mem_cons.mpr ⟨rfl, List.forall_mem_cons.mpr ⟨rfl, hrest⟩⟩) fun b hb => quiet_others hb (hothers b hb) _ _
  · change (modify i _ _ j).source = false
    rw [unlink_eq]
    exact hover.sources j hj
  · change (modify i _ _ j).child = decide (i + 1 ≤ j)
    rw [unlink_eq]
    simp only
    rw [hcut j hj, ← Bool.decide_and]
    exact decide_eq_decide.mpr (by omega)

end Libzorpll.StackPhases
