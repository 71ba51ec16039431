import Libzorpll.StackRun

/-! The calls of a program and of the main loop on a stack. -/

namespace Libzorpll.StackCalls

open StackLife StackHeld StackSteps StackPhases StackRun Debts

variable {T : Type} [DecidableEq T] [Fintype T] {es new : List (Event T)} {s t : Stack T} {a b : Option T} {f g : Frame}
  {rest frames todo : List Frame} {i j : Nat}

/-! What a call puts before the rest -/

theorem debt_call (w : Frame → Int) (frames : List Frame) {x : Stack T} (hx : x.todo = s.todo) :
    debt w (setTodo a (frames ++ s.todo a) x).todo = debt w s.todo + owed w frames := by
  change debt w (Function.update x.todo a (frames ++ s.todo a)) = _
  rw [hx, debt_update, owed_append]
  omega

theorem sum_hold (b : Option T) (n : Nat) :
    ∑ a, ((Function.update s.hold b n a : Nat) : Int) = ∑ a, (s.hold a : Int) - s.hold b + n := by
  have hcomp := Function.comp_update (fun n : Nat => (n : Int)) s.hold b n
  have hsum := sum_update (fun a => (s.hold a : Int)) b n
  rw [← hsum]
  exact congrArg (fun g : Option T → Int => ∑ a, g a) hcomp

omit [Fintype T] in
theorem mem_call {x : Stack T} (hx : x.todo = s.todo) (hmem : g ∈ (setTodo a (frames ++ s.todo a) x).todo b) :
    (b = a ∧ g ∈ frames) ∨ g ∈ s.todo b := by
  refine mem_update ?_ (List.suffix_refl _) hmem
  rw [← hx]
  rfl

theorem inDispatch_call (h : InDispatch todo) (frames : List Frame) : InDispatch (frames ++ todo) := by
  obtain ⟨i, poll, hlast⟩ := h
  refine ⟨i, poll, ?_⟩
  rw [List.getLast?_append, hlast]
  rfl

/-- At home, only a callback waits. -/
theorem home_first (hi : Inv es s) (hhome : AtHome s a) (hg : g ∈ s.todo a) : first g = false := by
  rcases hhome with hnil | ⟨i, top, rest, htodo⟩
  · rw [hnil] at hg
    cases hg
  · rw [htodo] at hg
    rcases List.mem_cons.mp hg with rfl | hg
    · rfl
    · exact heads_rest hi htodo hg

theorem home_anchor (hi : Inv es s) (hhome : AtHome s a) (hg : g ∈ s.todo a) : InDispatch (s.todo a) := by
  rcases hhome with hnil | ⟨i, top, rest, htodo⟩
  · rw [hnil] at hg
    cases hg
  · have hok := hi.frames a (.inCallback i top) (htodo ▸ List.mem_cons_self)
    exact hok.2.2.2

/-! A structure that is held is taken apart by nobody -/

omit [DecidableEq T] [Fintype T] in
theorem whole_open (h : Phase s) (hopen : s.isOpen = true ∨ s.attached = true) : Whole s := by
  have hnot (hover : Over s) : False := by
    rcases hopen with hopen | hattached
    · exact Bool.noConfusion (hover.closed.symm.trans hopen)
    · exact Bool.noConfusion (hover.detached.symm.trans hattached)
  cases h with
  | whole h => exact h
  | breaking _ _ _ _ hover | passing _ _ _ _ _ hover | broken hover => exact (hnot hover).elim

omit [Fintype T] in
theorem whole_call {x : Stack T} (h : Whole s) (hdepth : x.depth = s.depth) (htodo : x.todo = s.todo)
    (hheld : 0 < (x.streams 0).structRef) (hchild : ∀ j, (x.streams j).child = (s.streams j).child)
    (htailed : Tailed (s.todo a) → Tailed (frames ++ s.todo a)) (hunlink : ∀ k, .unlink k ∉ frames) :
    Whole (setTodo a (frames ++ s.todo a) x) where
  held := hheld
  linked j hj := (hchild j).trans (h.linked j (hdepth ▸ hj))
  tailed b := by
    by_cases hb : b = a
    · rw [hb, todo_setTodo]
      exact htailed (h.tailed a)
    · rw [todo_other hb, htodo]
      exact h.tailed b
  unlinks b k hmem := by
    rcases mem_call htodo hmem with ⟨-, hmem⟩ | hmem
    · exact hunlink k hmem
    · exact h.unlinks b k hmem

theorem needs_structural (hg : structural g = false) : needs g = false := by
  cases g with
  | unref | detached | grab | release | unlink => rfl
  | _ => cases hg

theorem tailed_quiet (htailed : Tailed todo) (hframes : Quiet frames) : Tailed (frames ++ todo) := by
  induction frames with
  | nil => exact htailed
  | cons f frames ih =>
      refine ⟨fun hneeds => ?_, ih (quiet_cons hframes)⟩
      rw [needs_structural (hframes f List.mem_cons_self)] at hneeds
      cases hneeds

omit [Fintype T] [DecidableEq T] in
/-- A call that does not use the structure leaves it as it is. -/
theorem phase_call (h : Phase s) (hdepth : t.depth = s.depth) (hopen : t.isOpen = s.isOpen) (hattached : t.attached = s.attached)
    (hstruct : ∀ j, (t.streams j).structRef = (s.streams j).structRef)
    (hchild : ∀ j, (t.streams j).child = (s.streams j).child) (hsource : ∀ j, (t.streams j).source = (s.streams j).source)
    (htodo : ∀ b, t.todo b = s.todo b ∨ (AtHome s b ∧ ∃ frames, t.todo b = frames ++ s.todo b ∧ Quiet frames)) : Phase t := by
  have hover (hover : Over s) : Over t :=
    ⟨hopen.trans hover.closed, hattached.trans hover.detached, fun j hj => (hsource j).trans (hover.sources j (hdepth ▸ hj))⟩
  have hcut {k : Nat} (hcut : Cut k s) : Cut k t := fun j hj => (hchild j).trans (hcut j (hdepth ▸ hj))
  have hquiet {b : Option T} (hquiet : Quiet (s.todo b)) : Quiet (t.todo b) := by
    rcases htodo b with hsame | ⟨-, frames, hsame, hframes⟩
    · rw [hsame]
      exact hquiet
    · intro g hg
      rw [hsame] at hg
      rcases List.mem_append.mp hg with hg | hg
      · exact hframes g hg
      · exact hquiet g hg
  have hother {b : Option T} {g : Frame} {rest : List Frame} (hb : s.todo b = g :: rest)
      (hg : ∀ i top, g ≠ .inCallback i top) : t.todo b = g :: rest := by
    rcases htodo b with hsame | ⟨hnil | ⟨i, top, rest', hin⟩, -⟩
    · exact hsame.trans hb
    · rw [hb] at hnil
      cases hnil
    · rw [hb] at hin
      exact absurd (List.cons.inj hin).1 (hg i top)
  cases h with
  | whole h =>
      refine .whole ⟨by rw [hstruct]; exact h.held, fun j hj => (hchild j).trans (h.linked j (hdepth ▸ hj)), fun b => ?_,
        fun b k hmem => ?_⟩
      · rcases htodo b with hsame | ⟨-, frames, hsame, hframes⟩
        · rw [hsame]
          exact h.tailed b
        · rw [hsame]
          exact tailed_quiet (h.tailed b) hframes
      · rcases htodo b with hsame | ⟨-, frames, hsame, hframes⟩
        · exact h.unlinks b k (hsame ▸ hmem)
        · rw [hsame] at hmem
          rcases List.mem_append.mp hmem with hmem | hmem
          · exact Bool.noConfusion (hframes _ hmem)
          · exact h.unlinks b k hmem
  | breaking k b rest hk hover' hcut' hb hrest hothers =>
      exact .breaking k b rest (hdepth ▸ hk) (hover hover') (hcut hcut') (hother hb nofun) hrest
        fun c hc => hquiet (hothers c hc)
  | passing k b rest hk hle hover' hcut' hb hunref hrest hothers =>
      exact .passing k b rest hk (hdepth ▸ hle) (hover hover') (hcut hcut') (hother hb nofun) hunref hrest
        fun c hc => hquiet (hothers c hc)
  | broken hover' hcut' hquiet' =>
      refine .broken (hover hover') ?_ fun b => hquiet (hquiet' b)
      rw [hdepth]
      exact hcut hcut'

omit [DecidableEq T] in
/-- The links are left alone. -/
theorem counted_call (h : Counted s) (hdepth : t.depth = s.depth)
    (hstructs : ∀ j, j ≤ s.depth → (t.streams j).structRef - one t.isOpen - one (t.streams j).source - debt (owes j) t.todo =
      (s.streams j).structRef - one s.isOpen - one (s.streams j).source - debt (owes j) s.todo)
    (hrefs : ∀ j, j ≤ s.depth → (t.streams j).refcnt - (if j = 0 then ∑ a, (t.hold a : Int) else 0) -
      one (t.streams j).sourceRef - debt (gives j) t.todo = (s.streams j).refcnt -
        (if j = 0 then ∑ a, (s.hold a : Int) else 0) - one (s.streams j).sourceRef - debt (gives j) s.todo)
    (hchild : ∀ j, (t.streams j).child = (s.streams j).child)
    (hparent : ∀ j, (t.streams j).parent = (s.streams j).parent) : Counted t where
  structs j hj := by
    have hold := h.structs j (hdepth ▸ hj)
    have hnew := hstructs j (hdepth ▸ hj)
    rw [linkAbove_congr hchild]
    omega
  refs j hj := by
    have hold := h.refs j (hdepth ▸ hj)
    have hnew := hrefs j (hdepth ▸ hj)
    rw [linkAbove_congr hchild, hchild]
    omega
  parents j hj := by
    rw [hparent, hchild]
    exact h.parents j (hdepth ▸ hj)
  last := by
    rw [hdepth, hchild]
    exact h.last

/-! The calls -/

theorem inv_share (hi : Inv es s) (hmay : MayCall s a) :
    Inv (es ++ [.touched 0]) (setHold b (s.hold b + 1) { s with streams := streamRef 0 s.streams }) := by
  have hlive := live_hold hi.counted hmay.2
  have heq (j : Nat) := streamRef_eq 0 s.streams j
  refine ⟨counted_call hi.counted rfl (fun j _ => ?_) (fun j _ => ?_) (fun j => ?_) fun j => ?_,
    sourced_same hi.sourced rfl rfl (fun j => ?_) (fun j => ?_) rfl fun _ _ _ hmem => hmem, frames_kept hi rfl
    (fun c i poll _ href => ?_) fun _ => .inl rfl, fun c g hg hstruct => ?_, hi.heads, phase_call hi.phase rfl rfl rfl
    (fun j => ?_) (fun j => ?_) (fun j => ?_) fun _ => .inl rfl, freed_same hi rfl (fun j hmem => ?_) fun j _ => ?_, fun hmem => ?_⟩
  · simp only [setHold, heq]
  · simp only [setHold, heq, sum_hold]
    split <;> omega
  · simp only [setHold, heq]
  · simp only [setHold, heq]
  · simp only [setHold, heq]
  · simp only [setHold, heq]
  · simp only [setHold, heq]
    exact href
  · refine (hi.anchor c g hg hstruct).imp_left fun hhold => ?_
    change 0 < Function.update s.hold b (s.hold b + 1) c
    by_cases hc : c = b
    · rw [hc, Function.update_self]
      exact Nat.succ_pos _
    · rw [Function.update_of_ne hc]
      exact hhold
  · simp only [setHold, heq]
  · simp only [setHold, heq]
  · simp only [setHold, heq]
  · cases List.mem_singleton.mp hmem
  · simp only [setHold, heq]
    split
    · rename_i hzero
      subst hzero
      constructor <;> intro hno <;> omega
    · rw [Int.add_zero]
  · rcases List.mem_append.mp hmem with hmem | hmem
    · exact hi.aborted hmem
    · cases List.mem_singleton.mp hmem

/-- What a call has put before the rest. -/
theorem frames_call (hi : Inv es s) {x : Stack T} (hx : x.todo = s.todo) (hdepth : x.depth = s.depth)
    (hstreams : ∀ j, (x.streams j).sourceRef = (s.streams j).sourceRef) (hhome : AtHome s a)
    (hleft : ∀ g ∈ frames, FrameOk (setTodo a (frames ++ s.todo a) x) a g) :
    ∀ b, ∀ g ∈ (setTodo a (frames ++ s.todo a) x).todo b, FrameOk (setTodo a (frames ++ s.todo a) x) b g := by
  refine frames_kept hi hdepth (fun b i poll _ href => (hstreams i).trans href) fun b => ?_
  by_cases hb : b = a
  · subst hb
    refine .inr fun g hg => ?_
    rw [todo_setTodo] at hg
    rcases List.mem_append.mp hg with hg | hg
    · exact .inr (hleft g hg)
    · refine .inl ⟨hg, home_first hi hhome hg, fun hin => ?_⟩
      rw [todo_setTodo]
      exact inDispatch_call hin _
  · exact .inl ((todo_other hb _ _).trans (congrFun hx b))

theorem heads_call (hi : Inv es s) {x : Stack T} (hx : x.todo = s.todo) (hhome : AtHome s a)
    (hframes : ∀ g ∈ frames.tail, first g = false) :
    ∀ b, ∀ g ∈ ((setTodo a (frames ++ s.todo a) x).todo b).tail, first g = false := by
  intro b g hg
  by_cases hb : b = a
  · subst hb
    rw [todo_setTodo] at hg
    cases frames with
    | nil => exact hi.heads b g hg
    | cons y ys =>
        rcases List.mem_append.mp hg with hg | hg
        · exact hframes g hg
        · exact home_first hi hhome hg
  · rw [todo_other hb, hx] at hg
    exact hi.heads b g hg

theorem anchor_call (hi : Inv es s) {x : Stack T} (hx : x.todo = s.todo) (hhome : AtHome s a)
    (hhold : ∀ b, b ≠ a → x.hold b = s.hold b)
    (hframes : ∀ g ∈ frames, structural g = true → 0 < x.hold a ∨ InDispatch (frames ++ s.todo a)) :
    ∀ b, ∀ g ∈ (setTodo a (frames ++ s.todo a) x).todo b, structural g = true →
      0 < x.hold b ∨ InDispatch ((setTodo a (frames ++ s.todo a) x).todo b) := by
  intro b g hg hstruct
  by_cases hb : b = a
  · subst hb
    rw [todo_setTodo] at hg ⊢
    rcases List.mem_append.mp hg with hg | hg
    · exact hframes g hg hstruct
    · exact .inr (inDispatch_call (home_anchor hi hhome hg) _)
  · rw [todo_other hb, hx] at hg ⊢
    rw [hhold b hb]
    exact hi.anchor b g hg hstruct

theorem sourced_call (h : Sourced s) {x : Stack T} (hx : x.todo = s.todo) (hdepth : x.depth = s.depth)
    (hattached : x.attached = s.attached) (hstreams : x.streams = s.streams) (hframes : ∀ g ∈ frames, detaching g = 0) :
    Sourced (setTodo a (frames ++ s.todo a) x) := by
  have hdebt := debt_call (a := a) detaching frames hx
  rw [owed_eq_zero hframes, Int.add_zero] at hdebt
  refine sourced_same h hdepth hattached (fun j => congrArg Stream.source (congrFun hstreams j))
    (fun j => congrArg Stream.sourceRef (congrFun hstreams j)) hdebt fun b g hg hmem => ?_
  rcases mem_call hx hmem with ⟨-, hmem⟩ | hmem
  · rw [hframes g hmem] at hg
    cases hg
  · exact hmem

omit [Fintype T] in
theorem quiet_call {x : Stack T} (hx : x.todo = s.todo) (hhome : AtHome s a) (hframes : Quiet frames) (b : Option T) :
    (setTodo a (frames ++ s.todo a) x).todo b = s.todo b ∨
      AtHome s b ∧ ∃ left, (setTodo a (frames ++ s.todo a) x).todo b = left ++ s.todo b ∧ Quiet left := by
  by_cases hb : b = a
  · subst hb
    exact .inr ⟨hhome, frames, todo_setTodo _ _ _, hframes⟩
  · exact .inl ((todo_other hb _ _).trans (congrFun hx b))

theorem freed_nothing (hi : Inv es s) (hdepth : t.depth = s.depth)
    (hsame : ∀ j, (t.streams j).refcnt = (s.streams j).refcnt) (j : Nat) :
    (es ++ []).count (Event.freed j) = if j ≤ t.depth ∧ (t.streams j).refcnt = 0 then 1 else 0 :=
  freed_same hi hdepth (fun _ => List.not_mem_nil) (fun j _ => by rw [hsame]) j

theorem aborted_nothing (hi : Inv es s) : .aborted ∉ es ++ [] := by
  rw [List.append_nil]
  exact hi.aborted

theorem inv_drop (hi : Inv es s) (hmay : MayCall s a) :
    Inv (es ++ []) (setTodo a ([.unref 0] ++ s.todo a) (setHold a (s.hold a - 1) s)) := by
  obtain ⟨hhome, hpos⟩ := hmay
  have hdebt (w : Frame → Int) : debt w (setTodo a ([.unref 0] ++ s.todo a) (setHold a (s.hold a - 1) s)).todo =
      debt w s.todo + owed w [.unref 0] := debt_call w _ rfl
  have hsum : ∑ b, ((setTodo a ([.unref 0] ++ s.todo a) (setHold a (s.hold a - 1) s)).hold b : Int) =
      ∑ b, (s.hold b : Int) - s.hold a + (s.hold a - 1 : Nat) := sum_hold a _
  refine ⟨counted_call hi.counted rfl (fun j _ => ?_) (fun j _ => ?_) (fun j => rfl) fun j => rfl,
    sourced_call hi.sourced rfl rfl rfl rfl (by simp [detaching]),
    frames_call hi rfl rfl (fun _ => rfl) hhome fun g hg => ?_, anchor_call hi rfl hhome (fun b hb => ?_) fun g hg hstruct => ?_,
    heads_call hi rfl hhome fun g hg => absurd hg List.not_mem_nil,
    phase_call hi.phase rfl rfl rfl (fun _ => rfl) (fun _ => rfl) (fun _ => rfl)
      (quiet_call rfl hhome (by simp [Quiet, structural])),
    freed_nothing hi rfl fun _ => rfl, aborted_nothing hi⟩
  · rw [hdebt]
    simp [owes, setTodo, setHold]
  · rw [hdebt, hsum]
    simp only [owed_cons, owed_nil, gives, setTodo, setHold]
    split <;> split <;> omega
  · rw [List.mem_singleton.mp hg]
    exact Nat.zero_le _
  · exact Function.update_of_ne hb _ _
  · rw [List.mem_singleton.mp hg] at hstruct
    cases hstruct

theorem inv_close (hi : Inv es s) (hmay : MayCall s a) (hopen : s.isOpen = true) :
    Inv (es ++ []) (setTodo a ([.close 0] ++ s.todo a) { s with isOpen := false }) := by
  obtain ⟨hhome, hpos⟩ := hmay
  have hwhole := whole_open hi.phase (.inl hopen)
  have hdebt (w : Frame → Int) : debt w (setTodo a ([.close 0] ++ s.todo a) { s with isOpen := false }).todo =
      debt w s.todo + owed w [.close 0] := debt_call w _ rfl
  refine ⟨counted_call hi.counted rfl (fun j _ => ?_) (fun j _ => ?_) (fun j => rfl) fun j => rfl,
    sourced_call hi.sourced rfl rfl rfl rfl (by simp [detaching]),
    frames_call hi rfl rfl (fun _ => rfl) hhome fun g hg => ?_, anchor_call hi rfl hhome (fun b hb => rfl) fun g hg _ => .inl hpos,
    heads_call hi rfl hhome fun g hg => absurd hg List.not_mem_nil,
    .whole (whole_call hwhole rfl rfl hwhole.held (fun _ => rfl) (fun htailed => ⟨nofun, htailed⟩) fun k hk => ?_),
    freed_nothing hi rfl fun _ => rfl, aborted_nothing hi⟩
  · rw [hdebt, hopen]
    simp only [owed_cons, owed_nil, owes, if_pos (Nat.zero_le j), show one false = 0 from rfl, show one true = 1 from rfl, setTodo]
    omega
  · rw [hdebt]
    simp [gives, setTodo]
  · rw [List.mem_singleton.mp hg]
    exact Nat.zero_le _
  · cases List.mem_singleton.mp hk

omit [DecidableEq T] in
theorem attached_alone (h : Sourced s) (hattached : s.attached = true) (hg : g ∈ s.todo b) : detaching g = 0 := by
  have hsingle := h.single
  rw [hattached, show one true = 1 from rfl] at hsingle
  by_contra hne
  have hpos := debt_pos detaching_nonneg hg (lt_of_le_of_ne (detaching_nonneg g) (Ne.symm hne))
  omega

/-- The one call that takes the sources off has just begun. -/
theorem sourced_begin (h : Sourced s) (hattached : s.attached = true) (hdepth : t.depth = s.depth)
    (hdetached : t.attached = false) (hsource : ∀ j, (t.streams j).source = (s.streams j).source)
    (href : ∀ j, (t.streams j).sourceRef = (s.streams j).sourceRef) (htodo : t.todo a = .detach 0 :: todo)
    (hzero : ∀ g ∈ todo, detaching g = 0) (hothers : ∀ b, b ≠ a → t.todo b = s.todo b) : Sourced t := by
  have hnone (b : Option T) (hb : b ≠ a) (g : Frame) (hg : g ∈ t.todo b) : detaching g = 0 :=
    attached_alone h hattached (hothers b hb ▸ hg)
  have hdebt : debt detaching t.todo = 1 := by
    have hupdate := debt_update detaching t.todo a []
    have hnothing : debt detaching (Function.update t.todo a []) = 0 := by
      refine debt_eq_zero fun b g hg => ?_
      by_cases hb : b = a
      · rw [hb, Function.update_self] at hg
        cases hg
      · rw [Function.update_of_ne hb] at hg
        exact hnone b hb g hg
    rw [hnothing, htodo, owed_cons, owed_eq_zero hzero, show detaching (.detach 0) = 1 from rfl, owed_nil] at hupdate
    omega
  have hnew (b : Option T) (g : Frame) (hg : detaching g = 1) (hmem : g ∈ t.todo b) : g = .detach 0 := by
    by_cases hb : b = a
    · rw [hb, htodo] at hmem
      rcases List.mem_cons.mp hmem with rfl | hmem
      · rfl
      · rw [hzero g hmem] at hg
        cases hg
    · rw [hnone b hb g hmem] at hg
      cases hg
  constructor
  · intro i hi
    rw [href]
    exact h.refs i (hsource i ▸ hi)
  · intro i hi
    rw [hdepth]
    exact h.depth i (href i ▸ hi)
  · rw [hdebt, hdetached]
    exact Int.le_refl 1
  · intro hno
    rw [hdetached] at hno
    cases hno
  · intro b j hmem i hi
    have hj := Frame.detach.inj (hnew b (.detach j) rfl hmem)
    rw [hj, hsource, h.attached hattached i (hdepth ▸ hi), decide_eq_true (Nat.zero_le i)]
  · intro b j hmem
    cases hnew b (.descend j) rfl hmem
  · intro _ hno
    rw [hdebt] at hno
    cases hno

theorem inv_detach (hi : Inv es s) (hmay : MayCall s a) (hattached : s.attached = true) :
    Inv (es ++ []) (setTodo a ([.detach 0, .detached] ++ s.todo a) { s with attached := false }) := by
  obtain ⟨hhome, hpos⟩ := hmay
  have hwhole := whole_open hi.phase (.inr hattached)
  have hdebt (w : Frame → Int) : debt w (setTodo a ([.detach 0, .detached] ++ s.todo a) { s with attached := false }).todo =
      debt w s.todo + owed w [.detach 0, .detached] := debt_call w _ rfl
  refine ⟨counted_call hi.counted rfl (fun j _ => ?_) (fun j _ => ?_) (fun j => rfl) fun j => rfl,
    sourced_begin hi.sourced hattached rfl rfl (fun _ => rfl) (fun _ => rfl) (todo_setTodo _ _ _) (fun g hg => ?_)
      fun b hb => todo_other hb _ _,
    frames_call hi rfl rfl (fun _ => rfl) hhome fun g hg => ?_, anchor_call hi rfl hhome (fun b hb => rfl) fun g hg _ => .inl hpos,
    heads_call hi rfl hhome fun g hg => ?_,
    .whole (whole_call hwhole rfl rfl hwhole.held (fun _ => rfl) (fun htailed => ⟨nofun, nofun, htailed⟩) fun k hk => ?_),
    freed_nothing hi rfl fun _ => rfl, aborted_nothing hi⟩
  · rw [hdebt]
    simp [owes, setTodo]
  · rw [hdebt]
    simp [gives, setTodo]
  · rcases List.mem_cons.mp hg with rfl | hg
    · rfl
    · exact attached_alone hi.sourced hattached hg
  · rcases List.mem_cons.mp hg with rfl | hg
    · exact Nat.zero_le _
    · rw [List.mem_singleton.mp hg]
      trivial
  · rw [List.mem_singleton.mp hg]
    rfl
  · simp at hk

theorem inv_dispatch (hi : Inv es s) {poll : Bool} (hhome : AtHome s none) (hsource : (s.streams i).source = true) :
    Inv (es ++ []) (setTodo none ([.grab i poll, .release i poll] ++ s.todo none) s) := by
  have href := hi.sourced.refs i hsource
  have hle := hi.sourced.depth i href
  have hin : InDispatch ([.grab i poll, .release i poll] ++ s.todo none) := by
    rcases hhome with hnil | ⟨k, top, rest, htodo⟩
    · rw [hnil]
      exact ⟨i, poll, rfl⟩
    · exact inDispatch_call (home_anchor hi (.inr ⟨k, top, rest, htodo⟩) (htodo ▸ List.mem_cons_self)) _
  have hdebt (w : Frame → Int) : debt w (setTodo none ([.grab i poll, .release i poll] ++ s.todo none) s).todo =
      debt w s.todo + owed w [.grab i poll, .release i poll] := debt_call w _ rfl
  refine ⟨counted_call hi.counted rfl (fun j _ => ?_) (fun j _ => ?_) (fun j => rfl) fun j => rfl,
    sourced_call hi.sourced rfl rfl rfl rfl (by simp [detaching]),
    frames_call hi rfl rfl (fun _ => rfl) hhome fun g hg => ?_, anchor_call hi rfl hhome (fun b hb => rfl) fun g hg hstruct => ?_,
    heads_call hi rfl hhome fun g hg => ?_,
    phase_call hi.phase rfl rfl rfl (fun _ => rfl) (fun _ => rfl) (fun _ => rfl)
      (quiet_call rfl hhome (by simp [Quiet, structural])),
    freed_nothing hi rfl fun _ => rfl, aborted_nothing hi⟩
  · rw [hdebt]
    simp [owes, setTodo]
  · rw [hdebt]
    simp [gives, setTodo]
  · rcases List.mem_cons.mp hg with rfl | hg
    · refine ⟨?_, ?_⟩
      · rw [todo_setTodo]
        exact List.mem_cons_of_mem _ List.mem_cons_self
      · rw [todo_setTodo]
        exact hin
    · rw [List.mem_singleton.mp hg]
      exact ⟨rfl, hle, href⟩
  · rcases List.mem_cons.mp hg with rfl | hg
    · cases hstruct
    · rw [List.mem_singleton.mp hg] at hstruct
      cases hstruct
  · rw [List.mem_singleton.mp hg]
    rfl

/-! The end of a callback -/

/-- The frames that wait for the callback. -/
theorem frames_back (hi : Inv es s) {top : Nat} (htodo : s.todo none = .inCallback i top :: rest) (hdepth : t.depth = s.depth)
    (href : ∀ j, (t.streams j).sourceRef = (s.streams j).sourceRef) (hnew : t.todo none = frames ++ rest)
    (hothers : ∀ b, b ≠ none → t.todo b = s.todo b) (hleft : ∀ g ∈ frames, FrameOk t none g) :
    ∀ b, ∀ g ∈ t.todo b, FrameOk t b g := by
  refine frames_kept hi hdepth (fun b i poll _ hsource => (href i).trans hsource) fun b => ?_
  by_cases hb : b = none
  · subst hb
    refine .inr fun g hg => ?_
    rw [hnew] at hg
    rcases List.mem_append.mp hg with hg | hg
    · exact .inr (hleft g hg)
    · refine .inl ⟨htodo ▸ List.mem_cons_of_mem _ hg, heads_rest hi htodo hg, fun hin => ?_⟩
      rw [htodo] at hin
      rw [hnew]
      exact inDispatch_rest hin (List.ne_nil_of_mem hg) _
  · exact .inl (hothers b hb)

theorem heads_back (hi : Inv es s) {top : Nat} (htodo : s.todo none = .inCallback i top :: rest)
    (hnew : t.todo none = frames ++ rest) (hothers : ∀ b, b ≠ none → t.todo b = s.todo b)
    (hleft : ∀ g ∈ frames, first g = false) : ∀ b, ∀ g ∈ (t.todo b).tail, first g = false := by
  intro b g hg
  by_cases hb : b = none
  · subst hb
    rw [hnew] at hg
    rcases List.mem_append.mp (List.mem_of_mem_tail hg) with hg | hg
    · exact hleft g hg
    · exact heads_rest hi htodo hg
  · rw [hothers b hb] at hg
    exact hi.heads b g hg

theorem anchor_back (hi : Inv es s) {top : Nat} (htodo : s.todo none = .inCallback i top :: rest)
    (hnew : t.todo none = frames ++ rest) (hothers : ∀ b, b ≠ none → t.todo b = s.todo b) (hhold : t.hold = s.hold) :
    ∀ b, ∀ g ∈ t.todo b, structural g = true → 0 < t.hold b ∨ InDispatch (t.todo b) := by
  intro b g hg hstruct
  by_cases hb : b = none
  · subst hb
    have hok := hi.frames none (.inCallback i top) (htodo ▸ List.mem_cons_self)
    have hin := hok.2.2.2
    rw [htodo] at hin
    rw [hnew]
    exact .inr (inDispatch_rest hin (inDispatch_ne_nil hin (fun _ _ heq => by cases heq)) _)
  · rw [hothers b hb] at hg ⊢
    rw [hhold]
    exact hi.anchor b g hg hstruct

theorem inv_comeBack (hi : Inv es s) {top : Nat} (htodo : s.todo none = .inCallback i top :: rest) :
    Inv (es ++ []) (setTodo none ([] ++ rest) s) := by
  have hwhole := whole_of_head hi.phase htodo rfl (fun _ heq => by cases heq) fun _ heq => by cases heq
  have hnew := todo_setTodo none ([] ++ rest) s
  have hothers (b : Option T) (hb : b ≠ none) := todo_other hb ([] ++ rest) s
  exact ⟨counted_frames hi.counted htodo (fun _ _ => rfl) fun _ => rfl,
    sourced_run hi.sourced htodo (fun _ => rfl) (fun _ => rfl) rfl fun g hg => absurd hg List.not_mem_nil,
    frames_back hi htodo rfl (fun _ => rfl) hnew hothers fun g hg => absurd hg List.not_mem_nil,
    anchor_back hi htodo hnew hothers rfl, heads_back hi htodo hnew hothers fun g hg => absurd hg List.not_mem_nil,
    .whole (whole_run hwhole htodo hwhole.held (fun _ => rfl) (whole_rest hwhole htodo) fun k => List.not_mem_nil),
    freed_nothing hi rfl fun _ => rfl, aborted_nothing hi⟩

theorem inv_comeBackFalse (hi : Inv es s) {top : Nat} (htodo : s.todo none = .inCallback i top :: rest)
    (hattached : s.attached = true) :
    Inv (es ++ [.touched top]) (setTodo none ([.detach top, .detached, .unref top] ++ rest)
      { s with streams := streamRef top s.streams, attached := false }) := by
  have hwhole := whole_of_head hi.phase htodo rfl (fun _ heq => by cases heq) fun _ heq => by cases heq
  have hmem : .inCallback i top ∈ s.todo none := htodo ▸ List.mem_cons_self
  obtain ⟨-, -, rfl, hin⟩ := hi.frames none _ hmem
  have hlive := live_whole hi hwhole (.inr hin) (Nat.zero_le _)
  have heq (j : Nat) := streamRef_eq 0 s.streams j
  have hchild (j : Nat) : (streamRef 0 s.streams j).child = (s.streams j).child := by rw [heq]
  have hsource (j : Nat) : (streamRef 0 s.streams j).source = (s.streams j).source := by rw [heq]
  have href (j : Nat) : (streamRef 0 s.streams j).sourceRef = (s.streams j).sourceRef := by rw [heq]
  have hcounted : Counted (setTodo none ([.detach 0, .detached, .unref 0] ++ rest) { s with streams := streamRef 0 s.streams }) := by
    refine counted_run hi.counted htodo (fun j _ => ?_) (fun j _ => ?_) (fun j hj => ?_) ?_
    · rw [linkAbove_congr hchild, heq]
      rfl
    · rw [linkAbove_congr hchild, heq]
      simp only [owed_cons, owed_nil, gives, eq_comm (a := j)]
      omega
    · rw [heq, heq]
      exact hi.counted.parents j hj
    · rw [heq]
      exact hi.counted.last
  have hnew := todo_setTodo none ([.detach 0, .detached, .unref 0] ++ rest)
    { s with streams := streamRef 0 s.streams, attached := false }
  have hothers (b : Option T) (hb : b ≠ none) := todo_other hb ([.detach 0, .detached, .unref 0] ++ rest)
    { s with streams := streamRef 0 s.streams, attached := false }
  refine ⟨⟨hcounted.structs, hcounted.refs, hcounted.parents, hcounted.last⟩,
    sourced_begin hi.sourced hattached rfl rfl hsource href hnew (fun g hg => ?_) hothers,
    frames_back hi htodo rfl href hnew hothers fun g hg => ?_, anchor_back hi htodo hnew hothers rfl,
    heads_back hi htodo hnew hothers fun g hg => ?_, .whole ⟨?_, fun j hj => (hchild j).trans (hwhole.linked j hj), fun b => ?_,
    fun b k hk => ?_⟩, freed_same hi rfl (fun j he => ?_) fun j _ => ?_, fun he => ?_⟩
  · rcases List.mem_cons.mp hg with rfl | hg
    · rfl
    · rcases List.mem_cons.mp hg with rfl | hg
      · rfl
      · exact attached_alone hi.sourced hattached (htodo ▸ List.mem_cons_of_mem _ hg)
  · simp only [List.mem_cons, List.not_mem_nil, or_false] at hg
    rcases hg with rfl | rfl | rfl
    · exact Nat.zero_le _
    · trivial
    · exact Nat.zero_le _
  · simp only [List.mem_cons, List.not_mem_nil, or_false] at hg
    rcases hg with rfl | rfl | rfl <;> rfl
  · change 0 < (streamRef 0 s.streams 0).structRef
    rw [heq]
    exact hwhole.held
  · by_cases hb : b = none
    · subst hb
      rw [hnew]
      have hneeds {p : Int} (h : false = true) : 0 < p := absurd h Bool.false_ne_true
      exact ⟨hneeds, hneeds, hneeds, whole_rest hwhole htodo⟩
    · rw [hothers b hb]
      exact hwhole.tailed b
  · by_cases hb : b = none
    · subst hb
      rw [hnew] at hk
      rcases List.mem_append.mp hk with hk | hk
      · simp at hk
      · exact hwhole.unlinks none k (htodo ▸ List.mem_cons_of_mem _ hk)
    · rw [hothers b hb] at hk
      exact hwhole.unlinks b k hk
  · cases List.mem_singleton.mp he
  · change (streamRef 0 s.streams j).refcnt = 0 ↔ _
    rw [heq]
    simp only
    split
    · rename_i hzero
      subst hzero
      constructor <;> intro hno <;> omega
    · rw [Int.add_zero]
  · rcases List.mem_append.mp he with he | he
    · exact hi.aborted he
    · cases List.mem_singleton.mp he

theorem inv_finalize (hi : Inv es s) (hgone : (s.streams i).source = false) (href : (s.streams i).sourceRef = true)
    (huse : ∀ poll, .release i poll ∉ s.todo none) :
    Inv (es ++ .touched i :: freeing i s.streams)
      { s with streams := modify i (fun p => { p with refcnt := p.refcnt - 1, sourceRef := false }) s.streams } := by
  have heq (j : Nat) := finalize_eq i s.streams j
  have hsource (j : Nat) : (modify i (fun p => { p with refcnt := p.refcnt - 1, sourceRef := false }) s.streams j).source =
      (s.streams j).source := by rw [heq]
  have hle := hi.sourced.depth i href
  have hchildless (hlast : (s.streams i).refcnt - 1 = 0) := childless (a := none) hi.counted hle hlast (.inr href)
  refine ⟨counted_call hi.counted rfl (fun j _ => ?_) (fun j _ => ?_) (fun j => ?_) fun j => ?_,
    ⟨fun j hj => ?_, fun j hj => ?_, hi.sourced.single, fun hattached j hj => ?_, fun b k hk j hj => ?_, fun b k hk j hj => ?_,
      fun hattached hzero j hj => ?_⟩,
    frames_kept hi rfl (fun b j poll hmem hheld => ?_) fun _ => .inl rfl, hi.anchor, hi.heads,
    phase_call hi.phase rfl rfl rfl (fun j => ?_) (fun j => ?_) (fun j => ?_) fun _ => .inl rfl,
    freed_drop hi rfl hle (live_source hi.counted hle href) hchildless fun j => ?_, aborted_drop hi hchildless⟩
  · simp only [heq]
  · by_cases hji : j = i
    · subst hji
      simp only [heq, href, ne_eq, not_true_eq_false, decide_false, Bool.and_false, if_true, show one false = 0 from rfl,
        show one true = 1 from rfl]
      omega
    · simp only [heq, hji, ne_eq, not_false_eq_true, decide_true, Bool.and_true, if_false]
      omega
  · simp only [heq]
  · simp only [heq]
  · have hold : (s.streams j).source = true := hsource j ▸ hj
    have hne : j ≠ i := by
      rintro rfl
      rw [hgone] at hold
      cases hold
    simp only [heq, hi.sourced.refs j hold, decide_eq_true hne, Bool.and_true]
  · have hold : (s.streams j).sourceRef = true := by
      simp only [heq, Bool.and_eq_true] at hj
      exact hj.1
    exact hi.sourced.depth j hold
  · exact (hsource j).trans (hi.sourced.attached hattached j hj)
  · exact (hsource j).trans (hi.sourced.detach b k hk j hj)
  · exact (hsource j).trans (hi.sourced.descend b k hk j hj)
  · exact (hsource j).trans (hi.sourced.finished hattached hzero j hj)
  · have hmem' : .release j poll ∈ s.todo b := hmem
    have hne : j ≠ i := by
      rintro rfl
      obtain ⟨rfl, -⟩ := hi.frames b _ hmem'
      exact huse poll hmem'
    simp only [heq, hheld, decide_eq_true hne, Bool.and_true]
  · simp only [heq]
  · simp only [heq]
  · simp only [heq]
  · simp only [heq]

/-! Every step -/

theorem inv_step {action : Action} (hi : Inv es s) (honce : Once action s) (hstep : Step action s new t) : Inv (es ++ new) t := by
  cases hstep with
  | run a htodo hexec => exact inv_frame hi htodo hexec
  | share a b hmay => exact inv_share hi hmay
  | drop a hmay => exact inv_drop hi hmay
  | close a hmay => exact inv_close hi hmay honce
  | detach a hmay => exact inv_detach hi hmay honce
  | dispatch i poll hhome hsource hcall => exact inv_dispatch hi hhome hsource
  | comeBack htodo => exact inv_comeBack hi htodo
  | comeBackFalse htodo => exact inv_comeBackFalse hi htodo honce
  | finalize i hgone href huse => exact inv_finalize hi hgone href huse

theorem inv_run {user : Option T} {depth : Nat} {polled : Bool} (h : Run user depth polled es s) : Inv es s :=
  Trace.Steps.invariant h Inv (inv_made user depth polled) fun _ _ _ _ _ hi honce hstep => inv_step hi honce hstep

end Libzorpll.StackCalls
