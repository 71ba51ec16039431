import Libzorpll.StackPhases

/-! Every run of a stack. -/

namespace Libzorpll.StackRun

open StackLife StackHeld StackSteps StackPhases Debts

variable {T : Type} [DecidableEq T] [Fintype T] {es : List (Event T)} {s t : Stack T} {a b : Option T} {f g : Frame}
  {rest frames todo : List Frame} {i j : Nat} {out : Outcome T}

/-! Streams that have not been freed -/

omit [DecidableEq T] in
theorem refcnt_ge (h : Counted s) (hi : i ≤ s.depth) :
    (i = 0 → ∑ a, (s.hold a : Int) ≤ (s.streams i).refcnt) ∧ one (linkAbove s.streams i) ≤ (s.streams i).refcnt ∧
      one (s.streams i).child ≤ (s.streams i).refcnt ∧ one (s.streams i).sourceRef ≤ (s.streams i).refcnt ∧
        debt (gives i) s.todo ≤ (s.streams i).refcnt := by
  have hrefs := h.refs i hi
  have hhold : 0 ≤ ∑ a, (s.hold a : Int) := Finset.sum_nonneg fun a _ => Int.natCast_nonneg (s.hold a)
  have hlink := one_nonneg (linkAbove s.streams i)
  have hchild := one_nonneg (s.streams i).child
  have hsource := one_nonneg (s.streams i).sourceRef
  have hdebt := debt_nonneg (gives_nonneg i) s.todo
  split at hrefs
  · exact ⟨fun _ => by omega, by omega, by omega, by omega, by omega⟩
  · rename_i hne
    exact ⟨fun hzero => absurd hzero hne, by omega, by omega, by omega, by omega⟩

omit [DecidableEq T] in
theorem live_hold (h : Counted s) (hhold : 0 < s.hold a) : 0 < (s.streams 0).refcnt := by
  have hge := (refcnt_ge h (Nat.zero_le _)).1 rfl
  have hle : (s.hold a : Int) ≤ ∑ a, (s.hold a : Int) :=
    Finset.single_le_sum (f := fun a => (s.hold a : Int)) (fun a _ => Int.natCast_nonneg (s.hold a)) (Finset.mem_univ a)
  omega

omit [DecidableEq T] in
theorem live_child (h : Counted s) (hi : i < s.depth) (hchild : (s.streams i).child = true) :
    0 < (s.streams i).refcnt ∧ 0 < (s.streams (i + 1)).refcnt := by
  obtain ⟨-, -, hself, -, -⟩ := refcnt_ge h (Nat.le_of_lt hi)
  obtain ⟨-, hlink, -, -, -⟩ := refcnt_ge h (i := i + 1) hi
  rw [hchild, show one true = 1 from rfl] at hself
  rw [linkAbove, hchild, show one true = 1 from rfl] at hlink
  omega

omit [DecidableEq T] in
theorem live_source (h : Counted s) (hi : i ≤ s.depth) (hsource : (s.streams i).sourceRef = true) :
    0 < (s.streams i).refcnt := by
  obtain ⟨-, -, -, hself, -⟩ := refcnt_ge h hi
  rw [hsource, show one true = 1 from rfl] at hself
  omega

omit [DecidableEq T] in
theorem live_unref (h : Counted s) (hi : i ≤ s.depth) (hmem : .unref i ∈ s.todo a) : 0 < (s.streams i).refcnt := by
  obtain ⟨-, -, -, -, hself⟩ := refcnt_ge h hi
  have hpos := debt_pos (gives_nonneg i) hmem (by simp [gives])
  omega

omit [DecidableEq T] in
theorem child_lt (h : Counted s) (hi : i ≤ s.depth) (hchild : (s.streams i).child = true) : i < s.depth := by
  refine Nat.lt_of_le_of_ne hi fun hdepth => ?_
  rw [hdepth, h.last] at hchild
  cases hchild

/-- Where the structure is held, no stream is freed while somebody uses it. -/
theorem live_whole (hi : Inv es s) (hwhole : Whole s) (hanchor : 0 < s.hold a ∨ InDispatch (s.todo a)) (hj : j ≤ s.depth) :
    0 < (s.streams j).refcnt := by
  cases j with
  | succ j => exact (live_child hi.counted hj (hwhole.linked j hj)).2
  | zero =>
      rcases Nat.eq_zero_or_pos s.depth with hdepth | hdepth
      · rcases hanchor with hhold | hin
        · exact live_hold hi.counted hhold
        · obtain ⟨k, poll, hmem⟩ := inDispatch_mem hin
          obtain ⟨-, hk, hsource⟩ := hi.frames a _ hmem
          rw [hdepth, Nat.le_zero] at hk
          exact live_source hi.counted (Nat.zero_le _) (hk ▸ hsource)
      · exact (live_child hi.counted hdepth (hwhole.linked 0 hdepth)).1

/-! What a frame touches -/

theorem walked_live (hi : Inv es s) {poll : Bool} (hmem : .grab i poll ∈ s.todo a) (hj : j ∈ walked (inCall s) s.streams i (!poll)) :
    j ≤ s.depth ∧ 0 < (s.streams j).refcnt := by
  obtain ⟨hrelease, hin⟩ := hi.frames a _ hmem
  obtain ⟨-, hdepth, href⟩ := hi.frames a _ hrelease
  refine ⟨Nat.le_trans (walked_le hj) hdepth, ?_⟩
  by_cases hji : j = i
  · rw [hji]
    exact live_source hi.counted hdepth href
  · have hsource := walked_source hj hji
    have hwhole : Whole s := by
      have hnot (hover : Over s) : False := Bool.noConfusion ((hover.sources i hdepth).symm.trans hsource)
      cases hi.phase with
      | whole h => exact h
      | breaking _ _ _ _ hover | passing _ _ _ _ _ hover | broken hover => exact (hnot hover).elim
    exact live_whole hi hwhole (.inr hin) (Nat.le_trans (walked_le hj) hdepth)

theorem touched_run (hi : Inv es s) (htodo : s.todo a = f :: rest) (hexec : exec a (inCall s) s.streams f = some out)
    (hj : .touched j ∈ out.events) : j ≤ s.depth ∧ 0 < (s.streams j).refcnt := by
  have hmem : f ∈ s.todo a := htodo ▸ List.mem_cons_self
  have hok := hi.frames a f hmem
  have hlive (hf : structural f = true) (hwhole : Whole s) (hji : j ≤ s.depth) : j ≤ s.depth ∧ 0 < (s.streams j).refcnt :=
    ⟨hji, live_whole hi hwhole (hi.anchor a f hmem hf) hji⟩
  cases f with
  | close i | detach i | descend i =>
      cases hexec
      have hji : j = i := by simpa using hj
      exact hlive rfl (whole_of_head hi.phase htodo rfl nofun nofun) (hji ▸ hok)
  | callback i top =>
      cases hexec
      have hji : j = i := by simpa using hj
      exact hlive rfl (whole_of_head hi.phase htodo rfl nofun nofun) (hji ▸ hok.2.1)
  | structUnref i =>
      have hself : i ≤ s.depth ∧ 0 < (s.streams i).refcnt := by
        rcases struct_cases hi.phase htodo with hwhole | ⟨-, -, -, hunref, -, -⟩
        · exact ⟨hok, live_whole hi hwhole (hi.anchor a _ hmem rfl) hok⟩
        · exact ⟨hok, live_unref hi.counted hok (htodo ▸ List.mem_cons_of_mem _ hunref)⟩
      rw [exec] at hexec
      split at hexec
      · rename_i hlast
        cases hexec
        have hlt := child_lt hi.counted hok hlast.2
        rcases List.mem_cons.mp hj with hj | hj
        · exact Event.touched.inj hj ▸ hself
        · rw [List.mem_singleton] at hj
          exact Event.touched.inj hj ▸ ⟨hlt, (live_child hi.counted hlt hlast.2).2⟩
      · cases hexec
        have hji : j = i := by simpa using hj
        exact hji ▸ hself
  | unlink i =>
      obtain ⟨hlt, -, hcut, -, -⟩ := unlink_cases hi.phase htodo
      have hchild : (s.streams i).child = true := (hcut i hlt).trans (decide_eq_true (Nat.le_refl i))
      have hparent : (s.streams (i + 1)).parent = true := (hi.counted.parents i hlt).trans hchild
      obtain ⟨hself, hnext⟩ := live_child hi.counted hlt hchild
      rw [exec, if_pos hchild, if_pos hparent] at hexec
      cases hexec
      rcases List.mem_cons.mp hj with hj | hj
      · exact Event.touched.inj hj ▸ ⟨hok, hself⟩
      · rw [List.mem_singleton] at hj
        exact Event.touched.inj hj ▸ ⟨hlt, hnext⟩
  | unref i =>
      cases hexec
      have hji : j = i := by
        rcases List.mem_cons.mp hj with hj | hj
        · exact Event.touched.inj hj
        · rw [freeing] at hj
          split at hj
          · split at hj <;> simp at hj
          · cases hj
      exact hji ▸ ⟨hok, live_unref hi.counted hok hmem⟩
  | grab i poll =>
      have hwalked : j ∈ walked (inCall s) s.streams i (!poll) := by
        cases hgrab : grabRef (inCall s) s.streams i (!poll) with
        | some top =>
            rw [exec, hgrab] at hexec
            cases hexec
            obtain ⟨k, hk, hkj⟩ := List.mem_map.mp hj
            exact Event.touched.inj hkj ▸ hk
        | none =>
            rw [exec, hgrab] at hexec
            cases hexec
            obtain ⟨k, hk, hkj⟩ := List.mem_map.mp hj
            exact Event.touched.inj hkj ▸ hk
      exact walked_live hi hmem hwalked
  | detached =>
      cases hexec
      simp at hj
  | inCallback => cases hexec
  | release =>
      cases hexec
      cases hj

/-! The frames that a frame leaves -/

theorem grab_top (hi : Inv es s) {poll : Bool} {top : Nat} (hmem : .grab i poll ∈ s.todo a)
    (hgrab : grabRef (inCall s) s.streams i (!poll) = some top) : Whole s ∧ top = 0 := by
  obtain ⟨hrelease, -⟩ := hi.frames a _ hmem
  obtain ⟨-, hdepth, -⟩ := hi.frames a _ hrelease
  have hsource := grabRef_source hgrab
  have hwhole : Whole s := by
    have hnot (hover : Over s) : False := Bool.noConfusion ((hover.sources i hdepth).symm.trans hsource)
    cases hi.phase with
    | whole h => exact h
    | breaking _ _ _ _ hover | passing _ _ _ _ _ hover | broken hover => exact (hnot hover).elim
  refine ⟨hwhole, grabRef_top (fun p hp => ?_) hgrab⟩
  rw [hi.counted.parents p (Nat.lt_of_lt_of_le hp hdepth)]
  exact hwhole.linked p (Nat.lt_of_lt_of_le hp hdepth)

omit [DecidableEq T] [Fintype T] in
theorem frameOk_mono (h : FrameOk s b g) (hdepth : t.depth = s.depth)
    (hgrab : ∀ i poll, g = .grab i poll → .release i poll ∈ s.todo b → .release i poll ∈ t.todo b)
    (hin : InDispatch (s.todo b) → InDispatch (t.todo b))
    (href : ∀ i poll, g = .release i poll → (s.streams i).sourceRef = true → (t.streams i).sourceRef = true) :
    FrameOk t b g := by
  cases g with
  | close i | detach i | descend i | structUnref i | unlink i | unref i =>
      have hle : i ≤ s.depth := h
      rw [← hdepth] at hle
      exact hle
  | detached => trivial
  | grab i poll => exact ⟨hgrab i poll rfl h.1, hin h.2⟩
  | callback i top | inCallback i top => exact ⟨h.1, hdepth ▸ h.2.1, h.2.2.1, hin h.2.2.2⟩
  | release i poll => exact ⟨h.1, hdepth ▸ h.2.1, href i poll rfl h.2.2⟩

theorem frames_left (hi : Inv es s) (htodo : s.todo a = f :: rest) (hexec : exec a (inCall s) s.streams f = some out)
    (hg : g ∈ out.frames) :
    FrameOk (setTodo a (out.frames ++ rest) { s with streams := out.streams }) a g := by
  have hmem : f ∈ s.todo a := htodo ▸ List.mem_cons_self
  have hok := hi.frames a f hmem
  cases f with
  | close i =>
      cases hexec
      simp only at hg
      split at hg
      · rename_i hchild
        have hlt := child_lt hi.counted hok hchild
        rcases List.mem_cons.mp hg with rfl | hg
        · exact hlt
        · rw [List.mem_singleton.mp hg]
          exact hok
      · rw [List.mem_singleton.mp hg]
        exact hok
  | detach i =>
      cases hexec
      simp only at hg
      split at hg
      · rcases List.mem_cons.mp hg with rfl | hg
        · exact hok
        · rw [List.mem_singleton.mp hg]
          exact hok
      · rw [List.mem_singleton.mp hg]
        exact hok
  | descend i =>
      cases hexec
      simp only at hg
      split at hg
      · rename_i hchild
        have hlt := child_lt hi.counted hok hchild
        rw [List.mem_singleton.mp hg]
        exact hlt
      · cases hg
  | structUnref i =>
      rw [exec] at hexec
      split at hexec
      · rename_i hlast
        cases hexec
        have hlt := child_lt hi.counted hok hlast.2
        rcases List.mem_cons.mp hg with rfl | hg
        · exact hok
        · rw [List.mem_singleton.mp hg]
          exact hlt
      · cases hexec
        cases hg
  | unlink i =>
      obtain ⟨hlt, -, hcut, -, -⟩ := unlink_cases hi.phase htodo
      have hchild : (s.streams i).child = true := (hcut i hlt).trans (decide_eq_true (Nat.le_refl i))
      have hparent : (s.streams (i + 1)).parent = true := (hi.counted.parents i hlt).trans hchild
      rw [exec, if_pos hchild, if_pos hparent] at hexec
      cases hexec
      rcases List.mem_cons.mp hg with rfl | hg
      · exact hlt
      · rcases List.mem_cons.mp hg with rfl | hg
        · exact hlt
        · rw [List.mem_singleton.mp hg]
          exact hok
  | unref i | detached | release i poll =>
      cases hexec
      cases hg
  | grab i poll =>
      obtain ⟨hrelease, hin⟩ := hok
      obtain ⟨hnone, hdepth, -⟩ := hi.frames a _ hrelease
      cases hgrab : grabRef (inCall s) s.streams i (!poll) with
      | none =>
          rw [exec, hgrab] at hexec
          cases hexec
          cases hg
      | some top =>
          obtain ⟨-, htop⟩ := grab_top hi hmem hgrab
          rw [exec, hgrab] at hexec
          cases hexec
          simp only at hg
          have hstruct : g = .structUnref top ∨ g = .callback i top := by
            cases poll with
            | true => exact .inl (List.mem_singleton.mp hg)
            | false =>
                rcases List.mem_cons.mp hg with rfl | hg
                · exact .inr rfl
                · exact .inl (List.mem_singleton.mp hg)
          rcases hstruct with rfl | rfl
          · exact htop ▸ Nat.zero_le _
          · refine ⟨hnone, hdepth, htop, ?_⟩
            rw [todo_setTodo]
            rw [htodo] at hin
            exact inDispatch_rest hin (inDispatch_ne_nil hin nofun) _
  | callback i top =>
      cases hexec
      rw [List.mem_singleton.mp hg]
      obtain ⟨hnone, hdepth, htop, hin⟩ := hok
      refine ⟨hnone, hdepth, htop, ?_⟩
      rw [todo_setTodo]
      rw [htodo] at hin
      exact inDispatch_rest hin (inDispatch_ne_nil hin nofun) _
  | inCallback => cases hexec

omit [DecidableEq T] [Fintype T] in
theorem exec_sourceRef {called : Nat → Bool} {streams : Streams} (hexec : exec a called streams f = some out) (j : Nat) :
    (out.streams j).sourceRef = (streams j).sourceRef := by
  cases f with
  | detach i =>
      cases hexec
      change (modify i _ streams j).sourceRef = _
      rw [unsource_eq]
  | structUnref i =>
      rw [exec] at hexec
      split at hexec
      · cases hexec
        change (streamRef _ _ j).sourceRef = _
        rw [streamRef_eq, structUnref_eq]
      · cases hexec
        change (modify i _ streams j).sourceRef = _
        rw [structUnref_eq]
  | unlink i =>
      rw [exec] at hexec
      split at hexec
      · split at hexec
        · cases hexec
          change (modify i _ _ j).sourceRef = _
          rw [unlink_eq]
        · cases hexec
          rfl
      · cases hexec
        rfl
  | unref i =>
      cases hexec
      change (streamUnref i streams j).sourceRef = _
      rw [streamUnref_eq]
  | grab i poll =>
      cases hgrab : grabRef called streams i (!poll) with
      | none =>
          rw [exec, hgrab] at hexec
          cases hexec
          rfl
      | some top =>
          rw [exec, hgrab] at hexec
          cases hexec
          change (structRef top streams j).sourceRef = _
          rw [structRef_eq]
  | inCallback => cases hexec
  | _ =>
      cases hexec
      rfl

theorem heads_rest (hi : Inv es s) (htodo : s.todo a = f :: rest) (hg : g ∈ rest) : first g = false := by
  have hheads := hi.heads a
  rw [htodo] at hheads
  exact hheads g hg

/-- The frames that are kept are as they were. -/
theorem frames_kept (hi : Inv es s) (hdepth : t.depth = s.depth)
    (href : ∀ b i poll, .release i poll ∈ t.todo b → (s.streams i).sourceRef = true → (t.streams i).sourceRef = true)
    (hold : ∀ b, t.todo b = s.todo b ∨ ∀ g ∈ t.todo b,
      (g ∈ s.todo b ∧ first g = false ∧ (InDispatch (s.todo b) → InDispatch (t.todo b))) ∨ FrameOk t b g) :
    ∀ b, ∀ g ∈ t.todo b, FrameOk t b g := by
  intro b g hg
  rcases hold b with hsame | hold
  · rw [hsame] at hg
    refine frameOk_mono (hi.frames b g hg) hdepth (fun i poll _ hmem => hsame ▸ hmem) (fun hin => hsame ▸ hin)
      fun i poll heq => ?_
    subst heq
    exact href b i poll (hsame ▸ hg)
  · rcases hold g hg with ⟨hmem, hfirst, hin⟩ | hok
    · refine frameOk_mono (hi.frames b g hmem) hdepth (fun i poll heq => ?_) hin fun i poll heq => ?_
      · rw [heq] at hfirst
        cases hfirst
      · subst heq
        exact href b i poll hg
    · exact hok

theorem frames_run (hi : Inv es s) (htodo : s.todo a = f :: rest) (hexec : exec a (inCall s) s.streams f = some out) :
    ∀ b, ∀ g ∈ (setTodo a (out.frames ++ rest) { s with streams := out.streams }).todo b,
      FrameOk (setTodo a (out.frames ++ rest) { s with streams := out.streams }) b g := by
  refine frames_kept hi rfl (fun b i poll _ href => (exec_sourceRef hexec i).trans href) fun b => ?_
  by_cases hb : b = a
  · subst hb
    refine .inr fun g hg => ?_
    rw [todo_setTodo] at hg
    rcases List.mem_append.mp hg with hg | hg
    · exact .inr (frames_left hi htodo hexec hg)
    · refine .inl ⟨htodo ▸ List.mem_cons_of_mem f hg, heads_rest hi htodo hg, fun hin => ?_⟩
      rw [todo_setTodo]
      rw [htodo] at hin
      exact inDispatch_rest hin (List.ne_nil_of_mem hg) _
  · exact .inl (todo_other hb _ _)

omit [DecidableEq T] [Fintype T] in
/-- Only the first frame can be put aside for nothing. -/
theorem first_left (hexec : exec a (inCall s) s.streams f = some out) (hg : g ∈ out.frames.tail) : first g = false := by
  cases f with
  | close i | detach i =>
      cases hexec
      simp only at hg
      split at hg
      · rw [List.mem_singleton.mp hg]
        rfl
      · cases hg
  | descend i =>
      cases hexec
      simp only at hg
      split at hg
      · cases hg
      · cases hg
  | structUnref i =>
      rw [exec] at hexec
      split at hexec
      · cases hexec
        rw [List.mem_singleton.mp hg]
        rfl
      · cases hexec
        cases hg
  | unlink i =>
      rw [exec] at hexec
      split at hexec
      · split at hexec
        · cases hexec
          rcases List.mem_cons.mp hg with rfl | hg
          · rfl
          · rw [List.mem_singleton.mp hg]
            rfl
        · cases hexec
          cases hg
      · cases hexec
        cases hg
  | grab i poll =>
      cases hgrab : grabRef (inCall s) s.streams i (!poll) with
      | none =>
          rw [exec, hgrab] at hexec
          cases hexec
          cases hg
      | some top =>
          rw [exec, hgrab] at hexec
          cases hexec
          cases poll with
          | true => cases hg
          | false =>
              rw [List.mem_singleton.mp hg]
              rfl
  | inCallback => cases hexec
  | _ =>
      cases hexec
      cases hg

theorem heads_run (hi : Inv es s) (htodo : s.todo a = f :: rest) (hexec : exec a (inCall s) s.streams f = some out) :
    ∀ b, ∀ g ∈ ((setTodo a (out.frames ++ rest) { s with streams := out.streams }).todo b).tail, first g = false := by
  intro b g hg
  by_cases hb : b = a
  · subst hb
    rw [todo_setTodo] at hg
    have hleft (hmem : g ∈ out.frames.tail) := first_left hexec hmem
    cases hframes : out.frames with
    | nil =>
        rw [hframes, List.nil_append] at hg
        exact heads_rest hi htodo (List.mem_of_mem_tail hg)
    | cons x xs =>
        rw [hframes, List.cons_append, List.tail_cons] at hg
        rw [hframes, List.tail_cons] at hleft
        rcases List.mem_append.mp hg with hg | hg
        · exact hleft hg
        · exact heads_rest hi htodo hg
  · rw [todo_other hb] at hg
    exact hi.heads b g hg

omit [DecidableEq T] [Fintype T] in
/-- What uses the structure is left by what uses it, or by a dispatch. -/
theorem structural_left (hexec : exec a (inCall s) s.streams f = some out) (hg : g ∈ out.frames) :
    structural f = true ∨ ∃ i poll, f = .grab i poll := by
  cases f with
  | grab i poll => exact .inr ⟨i, poll, rfl⟩
  | unref | detached | release =>
      cases hexec
      cases hg
  | _ => exact .inl rfl

theorem anchor_run (hi : Inv es s) (htodo : s.todo a = f :: rest) (hexec : exec a (inCall s) s.streams f = some out) :
    ∀ b, ∀ g ∈ (setTodo a (out.frames ++ rest) { s with streams := out.streams }).todo b, structural g = true →
      0 < s.hold b ∨ InDispatch ((setTodo a (out.frames ++ rest) { s with streams := out.streams }).todo b) := by
  intro b g hg hstruct
  have hmem : f ∈ s.todo a := htodo ▸ List.mem_cons_self
  by_cases hb : b = a
  · subst hb
    rw [todo_setTodo] at hg ⊢
    have hanchor : 0 < s.hold b ∨ InDispatch (s.todo b) := by
      rcases List.mem_append.mp hg with hg | hg
      · rcases structural_left hexec hg with hf | ⟨i, poll, rfl⟩
        · exact hi.anchor b f hmem hf
        · exact .inr (hi.frames b _ hmem).2
      · exact hi.anchor b g (htodo ▸ List.mem_cons_of_mem f hg) hstruct
    rcases hanchor with hhold | hin
    · exact .inl hhold
    · rw [htodo] at hin
      have hrest : rest ≠ [] := by
        rcases List.mem_append.mp hg with hg | hg
        · refine inDispatch_ne_nil hin fun i poll heq => ?_
          rw [heq] at hexec
          cases hexec
          cases hg
        · exact List.ne_nil_of_mem hg
      exact .inr (inDispatch_rest hin hrest _)
  · rw [todo_other hb] at hg ⊢
    exact hi.anchor b g hg hstruct

/-! What is freed -/

omit [DecidableEq T] in
/-- The reference that is given back was the last one. -/
theorem childless (h : Counted s) (hi : i ≤ s.depth) (hlast : (s.streams i).refcnt - 1 = 0)
    (hheld : .unref i ∈ s.todo a ∨ (s.streams i).sourceRef = true) : (s.streams i).child = false := by
  have hrefs := h.refs i hi
  have hhold : 0 ≤ ∑ a, (s.hold a : Int) := Finset.sum_nonneg fun a _ => Int.natCast_nonneg (s.hold a)
  have hlink := one_nonneg (linkAbove s.streams i)
  have hsource := one_nonneg (s.streams i).sourceRef
  have hdebt := debt_nonneg (gives_nonneg i) s.todo
  refine Bool.eq_false_of_not_eq_true fun hchild => ?_
  rw [hchild, show one true = 1 from rfl] at hrefs
  rcases hheld with hmem | hheld
  · have hpos := debt_pos (gives_nonneg i) hmem (by simp [gives])
    split at hrefs <;> omega
  · rw [hheld, show one true = 1 from rfl] at hrefs
    split at hrefs <;> omega

variable {new : List (Event T)}

theorem freed_same (hi : Inv es s) (hdepth : t.depth = s.depth) (hnone : ∀ j, .freed j ∉ new)
    (hsame : ∀ j, j ≤ s.depth → ((t.streams j).refcnt = 0 ↔ (s.streams j).refcnt = 0)) (j : Nat) :
    (es ++ new).count (.freed j) = if j ≤ t.depth ∧ (t.streams j).refcnt = 0 then 1 else 0 := by
  have hiff : (j ≤ s.depth ∧ (t.streams j).refcnt = 0) ↔ (j ≤ s.depth ∧ (s.streams j).refcnt = 0) :=
    and_congr_right (hsame j)
  rw [List.count_append, hi.freed, List.count_eq_zero_of_not_mem (hnone j), hdepth, Nat.add_zero]
  simp only [hiff]

/-- One reference is given back. -/
theorem freed_drop (hi : Inv es s) (hdepth : t.depth = s.depth) (hle : i ≤ s.depth) (hlive : 0 < (s.streams i).refcnt)
    (hchild : (s.streams i).refcnt - 1 = 0 → (s.streams i).child = false)
    (hrefcnt : ∀ j, (t.streams j).refcnt = (s.streams j).refcnt - if j = i then 1 else 0) (j : Nat) :
    (es ++ Event.touched i :: freeing i s.streams).count (Event.freed j) =
      if j ≤ t.depth ∧ (t.streams j).refcnt = 0 then 1 else 0 := by
  have hfreeing : (freeing i s.streams : List (Event T)) = if (s.streams i).refcnt - 1 = 0 then [.freed i] else [] := by
    rw [freeing]
    split
    · rename_i hlast
      rw [hchild hlast]
      rfl
    · rfl
  rw [List.count_append, hi.freed, hdepth, hrefcnt, hfreeing, List.count_cons_of_ne (by nofun)]
  by_cases hj : j = i
  · subst hj
    have hold : ¬(j ≤ s.depth ∧ (s.streams j).refcnt = 0) := by omega
    rw [if_neg hold, if_pos rfl, Nat.zero_add]
    by_cases hlast : (s.streams j).refcnt - 1 = 0
    · rw [if_pos hlast, if_pos ⟨hle, hlast⟩, List.count_singleton_self]
    · rw [if_neg hlast, if_neg fun h => hlast h.2, List.count_nil]
  · rw [if_neg hj, Int.sub_zero]
    have hnone : List.count (Event.freed j : Event T) (if (s.streams i).refcnt - 1 = 0 then [.freed i] else []) = 0 := by
      refine List.count_eq_zero_of_not_mem fun hmem => ?_
      split at hmem
      · exact hj (Event.freed.inj (List.mem_singleton.mp hmem))
      · cases hmem
    rw [hnone, Nat.add_zero]

theorem aborted_drop (hi : Inv es s) (hchild : (s.streams i).refcnt - 1 = 0 → (s.streams i).child = false) :
    .aborted ∉ es ++ .touched i :: freeing i s.streams := by
  intro hmem
  rcases List.mem_append.mp hmem with hmem | hmem
  · exact hi.aborted hmem
  · rcases List.mem_cons.mp hmem with hmem | hmem
    · cases hmem
    · rw [freeing] at hmem
      split at hmem
      · rename_i hlast
        rw [hchild hlast] at hmem
        cases List.mem_singleton.mp hmem
      · cases hmem

/-- Nothing is freed but by z_stream_unref. -/
theorem events_run (hi : Inv es s) (htodo : s.todo a = f :: rest) (hexec : exec a (inCall s) s.streams f = some out)
    (hf : ∀ i, f ≠ .unref i) {e : Event T} (he : e ∈ out.events) :
    (∃ j, e = .touched j) ∨ (∃ j, e = .called j) ∨ e = .detached a := by
  cases f with
  | close i | detach i | descend i =>
      cases hexec
      exact .inl ⟨i, List.mem_singleton.mp he⟩
  | structUnref i =>
      rw [exec] at hexec
      split at hexec
      · cases hexec
        rcases List.mem_cons.mp he with rfl | he
        · exact .inl ⟨i, rfl⟩
        · exact .inl ⟨i + 1, List.mem_singleton.mp he⟩
      · cases hexec
        exact .inl ⟨i, List.mem_singleton.mp he⟩
  | unlink i =>
      obtain ⟨hlt, -, hcut, -, -⟩ := unlink_cases hi.phase htodo
      have hchild : (s.streams i).child = true := (hcut i hlt).trans (decide_eq_true (Nat.le_refl i))
      have hparent : (s.streams (i + 1)).parent = true := (hi.counted.parents i hlt).trans hchild
      rw [exec, if_pos hchild, if_pos hparent] at hexec
      cases hexec
      rcases List.mem_cons.mp he with rfl | he
      · exact .inl ⟨i, rfl⟩
      · exact .inl ⟨i + 1, List.mem_singleton.mp he⟩
  | unref i => exact absurd rfl (hf i)
  | detached =>
      cases hexec
      exact .inr (.inr (List.mem_singleton.mp he))
  | grab i poll =>
      cases hgrab : grabRef (inCall s) s.streams i (!poll) with
      | some top =>
          rw [exec, hgrab] at hexec
          cases hexec
          obtain ⟨k, -, hk⟩ := List.mem_map.mp he
          exact .inl ⟨k, hk.symm⟩
      | none =>
          rw [exec, hgrab] at hexec
          cases hexec
          obtain ⟨k, -, hk⟩ := List.mem_map.mp he
          exact .inl ⟨k, hk.symm⟩
  | callback i top =>
      cases hexec
      rcases List.mem_cons.mp he with rfl | he
      · exact .inl ⟨i, rfl⟩
      · exact .inr (.inl ⟨i, List.mem_singleton.mp he⟩)
  | inCallback => cases hexec
  | release =>
      cases hexec
      cases he

/-- Whatever else is done, the streams that were freed are the same. -/
theorem refcnt_run (hi : Inv es s) (htodo : s.todo a = f :: rest) (hexec : exec a (inCall s) s.streams f = some out)
    (hf : ∀ i, f ≠ .unref i) (hj : j ≤ s.depth) : (out.streams j).refcnt = 0 ↔ (s.streams j).refcnt = 0 := by
  have hmem : f ∈ s.todo a := htodo ▸ List.mem_cons_self
  cases f with
  | detach i =>
      cases hexec
      change (modify i _ s.streams j).refcnt = 0 ↔ _
      rw [unsource_eq]
  | structUnref i =>
      rw [exec] at hexec
      split at hexec
      · rename_i hlast
        have hnext := (live_child hi.counted (child_lt hi.counted (hi.frames a _ hmem) hlast.2) hlast.2).2
        cases hexec
        change (streamRef (i + 1) _ j).refcnt = 0 ↔ _
        rw [streamRef_eq, structUnref_eq]
        simp only
        split
        · rename_i hji
          subst hji
          constructor <;> intro hzero <;> omega
        · rw [Int.add_zero]
      · cases hexec
        change (modify i _ s.streams j).refcnt = 0 ↔ _
        rw [structUnref_eq]
  | unlink i =>
      rw [exec] at hexec
      split at hexec
      · split at hexec
        · cases hexec
          change (modify i _ _ j).refcnt = 0 ↔ _
          rw [unlink_eq]
        · cases hexec
          exact Iff.rfl
      · cases hexec
        exact Iff.rfl
  | unref i => exact absurd rfl (hf i)
  | grab i poll =>
      cases hgrab : grabRef (inCall s) s.streams i (!poll) with
      | some top =>
          rw [exec, hgrab] at hexec
          cases hexec
          change (structRef top s.streams j).refcnt = 0 ↔ _
          rw [structRef_eq]
      | none =>
          rw [exec, hgrab] at hexec
          cases hexec
          exact Iff.rfl
  | inCallback => cases hexec
  | _ =>
      cases hexec
      exact Iff.rfl

/-! A frame -/

theorem parts_run (hi : Inv es s) (htodo : s.todo a = f :: rest) (hexec : exec a (inCall s) s.streams f = some out) :
    Counted (setTodo a (out.frames ++ rest) { s with streams := out.streams }) ∧
      Sourced (setTodo a (out.frames ++ rest) { s with streams := out.streams }) ∧
        Phase (setTodo a (out.frames ++ rest) { s with streams := out.streams }) := by
  have hcounted := hi.counted
  have hsourced := hi.sourced
  have hphase := hi.phase
  have hmem : f ∈ s.todo a := htodo ▸ List.mem_cons_self
  have hok := hi.frames a f hmem
  cases f with
  | close i =>
      have hwhole := whole_of_head hphase htodo rfl (fun _ heq => by cases heq) fun _ heq => by cases heq
      have htailed := hwhole.tailed a
      rw [htodo] at htailed
      cases hexec
      refine ⟨counted_close hcounted hwhole htodo hok, sourced_run hsourced htodo (fun _ => rfl) (fun _ => rfl) rfl fun g hg => ?_,
        .whole (whole_run hwhole htodo hwhole.held (fun _ => rfl) ?_ fun k hk => ?_)⟩
      · split at hg <;> simp at hg <;> rcases hg with rfl | rfl <;> rfl
      · split
        · exact tailed_close htailed
        · exact tailed_structUnref htailed.1 htailed.2
      · split at hk <;> simp at hk
  | detach i =>
      have hwhole := whole_of_head hphase htodo rfl (fun _ heq => by cases heq) fun _ heq => by cases heq
      have htailed := hwhole.tailed a
      rw [htodo] at htailed
      have hsource : (s.streams i).source = true :=
        (hsourced.detach a i hmem i hok).trans (decide_eq_true (Nat.le_refl i))
      have hnext := sourced_detach hsourced htodo
      rw [← if_pos (c := (s.streams i).source = true) (t := [Frame.descend i, .structUnref i]) (e := [.descend i]) hsource]
        at hnext
      cases hexec
      refine ⟨counted_detach hcounted htodo hsource, hnext, .whole (whole_run hwhole htodo ?_ (fun j => ?_) ?_ fun k hk => ?_)⟩
      · simp only [unsource_eq]
        exact hwhole.held
      · simp only [unsource_eq]
      · simp only
        rw [if_pos hsource]
        exact tailed_detach htailed
      · split at hk <;> simp at hk
  | descend i =>
      have hwhole := whole_of_head hphase htodo rfl (fun _ heq => by cases heq) fun _ heq => by cases heq
      have htailed := hwhole.tailed a
      rw [htodo] at htailed
      cases hexec
      refine ⟨counted_frames hcounted htodo (fun j _ => ?_) (fun j => ?_),
        sourced_descend hsourced htodo (child_of_whole hcounted hwhole hok),
        .whole (whole_run hwhole htodo hwhole.held (fun _ => rfl) ?_ fun k hk => ?_)⟩
      · split <;> rfl
      · split <;> rfl
      · split
        · exact ⟨fun _ => htailed.1 rfl, htailed.2⟩
        · exact htailed.2
      · split at hk <;> simp at hk
  | structUnref i =>
      rw [exec] at hexec
      split at hexec
      · rename_i hlast
        cases hexec
        refine ⟨counted_break hcounted htodo, sourced_run hsourced htodo (fun j => ?_) (fun j => ?_) rfl fun g hg => ?_,
          phase_break hcounted hsourced hphase hok htodo hlast.1 hlast.2⟩
        · simp only [streamRef_eq, structUnref_eq]
        · simp only [streamRef_eq, structUnref_eq]
        · simp at hg
          rcases hg with rfl | rfl <;> rfl
      · rename_i hnot
        cases hexec
        refine ⟨counted_structUnref hcounted htodo, sourced_run hsourced htodo (fun j => ?_) (fun j => ?_) rfl fun g hg => ?_,
          phase_structUnref hcounted hsourced hphase hok htodo hnot⟩
        · simp only [structUnref_eq]
        · simp only [structUnref_eq]
        · cases hg
  | unlink i =>
      obtain ⟨hlt, -, hcut, -, -⟩ := unlink_cases hphase htodo
      have hchild : (s.streams i).child = true := (hcut i hlt).trans (decide_eq_true (Nat.le_refl i))
      have hparent : (s.streams (i + 1)).parent = true := (hcounted.parents i hlt).trans hchild
      rw [exec, if_pos hchild, if_pos hparent] at hexec
      cases hexec
      refine ⟨counted_unlink hcounted htodo hchild, sourced_run hsourced htodo (fun j => ?_) (fun j => ?_) rfl fun g hg => ?_,
        phase_unlink hphase htodo⟩
      · simp only [unlink_eq]
      · simp only [unlink_eq]
      · simp at hg
        rcases hg with rfl | rfl | rfl <;> rfl
  | unref i =>
      cases hexec
      refine ⟨counted_unref hcounted htodo, sourced_run hsourced htodo (fun j => ?_) (fun j => ?_) rfl fun g hg => ?_,
        phase_drop hphase htodo rfl (fun j => ?_) (fun j => ?_) fun j => ?_⟩
      · simp only [streamUnref_eq]
      · simp only [streamUnref_eq]
      · cases hg
      · simp only [streamUnref_eq]
      · simp only [streamUnref_eq]
      · simp only [streamUnref_eq]
  | grab i poll =>
      cases hgrab : grabRef (inCall s) s.streams i (!poll) with
      | none =>
          rw [exec, hgrab] at hexec
          cases hexec
          exact ⟨counted_frames hcounted htodo (fun _ _ => rfl) fun _ => rfl,
            sourced_run hsourced htodo (fun _ => rfl) (fun _ => rfl) rfl fun g hg => absurd hg List.not_mem_nil,
            phase_drop hphase htodo rfl (fun _ => rfl) (fun _ => rfl) fun _ => rfl⟩
      | some top =>
          obtain ⟨hwhole, rfl⟩ := grab_top hi hmem hgrab
          rw [exec, hgrab] at hexec
          cases hexec
          refine ⟨counted_grab hcounted htodo, sourced_run hsourced htodo (fun j => ?_) (fun j => ?_) rfl fun g hg => ?_,
            .whole (whole_run hwhole htodo ?_ (fun j => ?_) ?_ fun k hk => ?_)⟩
          · simp only [structRef_eq]
          · simp only [structRef_eq]
          · cases poll <;> simp at hg
            · rcases hg with rfl | rfl <;> rfl
            · rw [hg]
              rfl
          · have hpos := hwhole.held
            simp only [structRef_eq, if_true]
            omega
          · simp only [structRef_eq]
          · have hrest := whole_rest hwhole htodo
            have hnonneg := owed_nonneg (owes_nonneg 0) rest
            cases poll with
            | true => exact ⟨fun hneeds => absurd hneeds Bool.false_ne_true, hrest⟩
            | false =>
                refine ⟨fun _ => ?_, fun hneeds => absurd hneeds Bool.false_ne_true, hrest⟩
                simp [owes]
                omega
          · cases poll <;> simp at hk
  | callback i top =>
      have hwhole := whole_of_head hphase htodo rfl (fun _ heq => by cases heq) fun _ heq => by cases heq
      have htailed := hwhole.tailed a
      rw [htodo] at htailed
      cases hexec
      refine ⟨counted_frames hcounted htodo (fun _ _ => rfl) fun _ => rfl,
        sourced_run hsourced htodo (fun _ => rfl) (fun _ => rfl) rfl fun g hg => ?_,
        .whole (whole_run hwhole htodo hwhole.held (fun _ => rfl) ⟨fun _ => htailed.1 rfl, htailed.2⟩ fun k hk => ?_)⟩
      · rw [List.mem_singleton.mp hg]
        rfl
      · cases List.mem_singleton.mp hk
  | inCallback => cases hexec
  | detached | release =>
      cases hexec
      exact ⟨counted_frames hcounted htodo (fun _ _ => rfl) fun _ => rfl,
        sourced_run hsourced htodo (fun _ => rfl) (fun _ => rfl) rfl fun g hg => absurd hg List.not_mem_nil,
        phase_drop hphase htodo rfl (fun _ => rfl) (fun _ => rfl) fun _ => rfl⟩

theorem inv_frame (hi : Inv es s) (htodo : s.todo a = f :: rest) (hexec : exec a (inCall s) s.streams f = some out) :
    Inv (es ++ out.events) (setTodo a (out.frames ++ rest) { s with streams := out.streams }) := by
  obtain ⟨hcounted, hsourced, hphase⟩ := parts_run hi htodo hexec
  have hmem : f ∈ s.todo a := htodo ▸ List.mem_cons_self
  refine ⟨hcounted, hsourced, frames_run hi htodo hexec, anchor_run hi htodo hexec, heads_run hi htodo hexec, hphase, ?_, ?_⟩
  · by_cases hf : ∃ i, f = .unref i
    · obtain ⟨i, rfl⟩ := hf
      have hle : i ≤ s.depth := hi.frames a _ hmem
      cases hexec
      exact freed_drop hi rfl hle (live_unref hi.counted hle hmem)
        (fun hlast => childless hi.counted hle hlast (.inl hmem)) fun j => congrArg Stream.refcnt (streamUnref_eq i s.streams j)
    · have hf' (i : Nat) : f ≠ .unref i := fun heq => hf ⟨i, heq⟩
      refine freed_same hi rfl (fun j he => ?_) fun j hj => refcnt_run hi htodo hexec hf' hj
      rcases events_run hi htodo hexec hf' he with ⟨k, hk⟩ | ⟨k, hk⟩ | hk <;> cases hk
  · by_cases hf : ∃ i, f = .unref i
    · obtain ⟨i, rfl⟩ := hf
      have hle : i ≤ s.depth := hi.frames a _ hmem
      cases hexec
      exact aborted_drop hi fun hlast => childless hi.counted hle hlast (.inl hmem)
    · have hf' (i : Nat) : f ≠ .unref i := fun heq => hf ⟨i, heq⟩
      intro he
      rcases List.mem_append.mp he with he | he
      · exact hi.aborted he
      · rcases events_run hi htodo hexec hf' he with ⟨k, hk⟩ | ⟨k, hk⟩ | hk <;> cases hk

end Libzorpll.StackRun
