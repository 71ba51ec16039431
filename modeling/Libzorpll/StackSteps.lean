import Libzorpll.StackHeld

/-! What a step of a thread keeps of a stack. -/

namespace Libzorpll.StackSteps

open StackLife StackHeld Debts

variable {T : Type} [DecidableEq T] [Fintype T] {es : List (Event T)} {s : Stack T} {a : Option T} {f : Frame}
  {rest frames : List Frame} {i : Nat}

theorem debt_run (htodo : s.todo a = f :: rest) (w : Frame → Int) (frames : List Frame) (streams : Streams) :
    debt w (setTodo a (frames ++ rest) { s with streams := streams }).todo = debt w s.todo - w f + owed w frames := by
  change debt w (Function.update s.todo a (frames ++ rest)) = _
  rw [debt_update, htodo, owed_cons, owed_append]
  omega

omit [Fintype T] in
/-- Only whoever takes the structure apart has a frame that uses it. -/
theorem whole_of_head (h : Phase s) (htodo : s.todo a = f :: rest) (hf : structural f = true) (hunlink : ∀ k, f ≠ .unlink k)
    (hstruct : ∀ k, f ≠ .structUnref k) : Whole s := by
  have hnot {todo : List Frame} (hquiet : Quiet todo) (htodo : todo = f :: rest) : False := by
    have hno := hquiet f (htodo ▸ List.mem_cons_self)
    exact Bool.noConfusion (hf.symm.trans hno)
  cases h with
  | whole h => exact h
  | breaking k b rest' hk hover hcut htodo' hrest hothers =>
      by_cases hab : a = b
      · rw [hab, htodo'] at htodo
        exact absurd (List.cons.inj htodo).1.symm (hunlink k)
      · exact (hnot (hothers a hab) htodo).elim
  | passing k b rest' hk hdepth hover hcut htodo' hunref hrest hothers =>
      by_cases hab : a = b
      · rw [hab, htodo'] at htodo
        exact absurd (List.cons.inj htodo).1.symm (hstruct k)
      · exact (hnot (hothers a hab) htodo).elim
  | broken hover hcut hquiet => exact (hnot (hquiet a) htodo).elim

omit [DecidableEq T] in
theorem child_of_whole (h : Counted s) (hwhole : Whole s) (hi : i ≤ s.depth) :
    (s.streams i).child = decide (i < s.depth) := by
  rcases Nat.lt_or_eq_of_le hi with hlt | rfl
  · rw [hwhole.linked i hlt, decide_eq_true hlt]
  · rw [h.last, decide_eq_false (Nat.lt_irrefl _)]

/-! What the streams are after a change -/

theorem modify_eq {m : Stream → Stream} {g : Stream → Nat → Stream} (hself : ∀ p, m p = g p i) {j : Nat}
    (hother : ∀ p, j ≠ i → g p j = p) (streams : Streams) : modify i m streams j = g (streams j) j := by
  by_cases hj : j = i
  · rw [hj, modify_self, hself]
  · rw [modify_other hj, hother _ hj]

theorem streamRef_eq (i : Nat) (streams : Streams) (j : Nat) :
    streamRef i streams j = { streams j with refcnt := (streams j).refcnt + if j = i then 1 else 0 } :=
  modify_eq (g := fun p j => { p with refcnt := p.refcnt + if j = i then 1 else 0 }) (fun p => by simp)
    (fun p hj => by simp [hj]) streams

theorem streamUnref_eq (i : Nat) (streams : Streams) (j : Nat) :
    streamUnref i streams j = { streams j with refcnt := (streams j).refcnt - if j = i then 1 else 0 } :=
  modify_eq (g := fun p j => { p with refcnt := p.refcnt - if j = i then 1 else 0 }) (fun p => by simp)
    (fun p hj => by simp [hj]) streams

theorem structRef_eq (i : Nat) (streams : Streams) (j : Nat) :
    structRef i streams j = { streams j with structRef := (streams j).structRef + if j = i then 1 else 0 } :=
  modify_eq (g := fun p j => { p with structRef := p.structRef + if j = i then 1 else 0 }) (fun p => by simp)
    (fun p hj => by simp [hj]) streams

theorem structUnref_eq (i : Nat) (streams : Streams) (j : Nat) :
    modify i (fun p => { p with structRef := p.structRef - 1 }) streams j =
      { streams j with structRef := (streams j).structRef - if j = i then 1 else 0 } :=
  modify_eq (g := fun p j => { p with structRef := p.structRef - if j = i then 1 else 0 }) (fun p => by simp)
    (fun p hj => by simp [hj]) streams

theorem unsource_eq (i : Nat) (streams : Streams) (j : Nat) :
    modify i (fun p => { p with source := false }) streams j =
      { streams j with source := (streams j).source && decide (j ≠ i) } :=
  modify_eq (g := fun p j => { p with source := p.source && decide (j ≠ i) }) (fun p => by simp)
    (fun p hj => by simp [hj]) streams

theorem unlink_eq (i : Nat) (streams : Streams) (j : Nat) :
    modify i (fun p => { p with child := false }) (modify (i + 1) (fun p => { p with parent := false }) streams) j =
      { streams j with child := (streams j).child && decide (j ≠ i)
                       parent := (streams j).parent && decide (j ≠ i + 1) } := by
  have hparent := modify_eq (m := fun p => { p with parent := false }) (i := i + 1) (j := j)
    (g := fun p j => { p with parent := p.parent && decide (j ≠ i + 1) }) (fun p => by simp)
    (fun p hj => by simp [hj]) streams
  have hchild := modify_eq (m := fun p => { p with child := false }) (i := i) (j := j)
    (g := fun p j => { p with child := p.child && decide (j ≠ i) }) (fun p => by simp) (fun p hj => by simp [hj])
    (modify (i + 1) (fun p => { p with parent := false }) streams)
  rw [hchild, hparent]

theorem finalize_eq (i : Nat) (streams : Streams) (j : Nat) :
    modify i (fun p => { p with refcnt := p.refcnt - 1, sourceRef := false }) streams j =
      { streams j with refcnt := (streams j).refcnt - if j = i then 1 else 0
                       sourceRef := (streams j).sourceRef && decide (j ≠ i) } :=
  modify_eq (g := fun p j => { p with refcnt := p.refcnt - if j = i then 1 else 0, sourceRef := p.sourceRef && decide (j ≠ i) })
    (fun p => by simp) (fun p hj => by simp [hj]) streams

/-! The counters -/

theorem linkAbove_congr {streams streams' : Streams} (hchild : ∀ j, (streams' j).child = (streams j).child) (j : Nat) :
    linkAbove streams' j = linkAbove streams j := by
  cases j with
  | zero => rfl
  | succ j => exact hchild j

/-- The frames and the streams that the first frame leaves balance it. -/
theorem counted_run (h : Counted s) (htodo : s.todo a = f :: rest) {streams : Streams}
    (hstructs : ∀ j, j ≤ s.depth → (streams j).structRef - one (linkAbove streams j) - one (streams j).source -
      owed (owes j) frames = (s.streams j).structRef - one (linkAbove s.streams j) - one (s.streams j).source - owes j f)
    (hrefs : ∀ j, j ≤ s.depth → (streams j).refcnt - one (linkAbove streams j) - one (streams j).child -
      one (streams j).sourceRef - owed (gives j) frames = (s.streams j).refcnt - one (linkAbove s.streams j) -
        one (s.streams j).child - one (s.streams j).sourceRef - gives j f)
    (hparents : ∀ j, j < s.depth → (streams (j + 1)).parent = (streams j).child)
    (hlast : (streams s.depth).child = false) :
    Counted (setTodo a (frames ++ rest) { s with streams := streams }) where
  structs j hj := by
    have hold := h.structs j hj
    have hnew := hstructs j hj
    rw [debt_run htodo]
    change (streams j).structRef = one s.isOpen + one (linkAbove streams j) + one (streams j).source + _
    omega
  refs j hj := by
    have hold := h.refs j hj
    have hnew := hrefs j hj
    rw [debt_run htodo]
    change (streams j).refcnt = (if j = 0 then ∑ a, (s.hold a : Int) else 0) + one (linkAbove streams j) +
      one (streams j).child + one (streams j).sourceRef + _
    omega
  parents := hparents
  last := hlast

/-- The streams are left as they are. -/
theorem counted_frames (h : Counted s) (htodo : s.todo a = f :: rest)
    (hstructs : ∀ j, j ≤ s.depth → owed (owes j) frames = owes j f) (hrefs : ∀ j, owed (gives j) frames = gives j f) :
    Counted (setTodo a (frames ++ rest) s) :=
  counted_run h htodo (fun j hj => by rw [hstructs j hj]) (fun j _ => by rw [hrefs j]) h.parents h.last

theorem counted_close (h : Counted s) (hwhole : Whole s) (htodo : s.todo a = .close i :: rest) (hi : i ≤ s.depth) :
    Counted (setTodo a ((if (s.streams i).child then [.close (i + 1), .structUnref i] else [.structUnref i]) ++ rest) s) := by
  rw [child_of_whole h hwhole hi]
  by_cases hlt : i < s.depth
  · rw [if_pos (decide_eq_true hlt)]
    refine counted_frames h htodo (fun j _ => ?_) fun j => rfl
    rw [owed_cons, owed_cons, owed_nil, owes, owes, owes]
    split_ifs <;> omega
  · rw [if_neg (by rw [decide_eq_true_iff]; exact hlt)]
    refine counted_frames h htodo (fun j hj => ?_) fun j => rfl
    rw [owed_cons, owed_nil, owes, owes]
    split_ifs <;> omega

theorem counted_detach (h : Counted s) (htodo : s.todo a = .detach i :: rest) (hsource : (s.streams i).source = true) :
    Counted (setTodo a ((if (s.streams i).source then [.descend i, .structUnref i] else [.descend i]) ++ rest)
      { s with streams := modify i (fun p => { p with source := false }) s.streams }) := by
  rw [if_pos hsource]
  have hchild (j : Nat) : (modify i (fun p => { p with source := false }) s.streams j).child = (s.streams j).child := by rw [unsource_eq]
  refine counted_run h htodo (fun j _ => ?_) (fun j _ => ?_) (fun j hj => ?_) ?_
  · rw [linkAbove_congr hchild, unsource_eq]
    by_cases hj : j = i
    · simp [hj, hsource, owes, one]
    · simp [hj, owes, Ne.symm hj]
  · rw [linkAbove_congr hchild, unsource_eq]
    rfl
  · rw [unsource_eq, unsource_eq]
    exact h.parents j hj
  · rw [unsource_eq]
    exact h.last

theorem counted_structUnref (h : Counted s) (htodo : s.todo a = .structUnref i :: rest) :
    Counted (setTodo a ([] ++ rest) { s with streams := modify i (fun p => { p with structRef := p.structRef - 1 }) s.streams }) := by
  have hchild (j : Nat) : (modify i (fun p => { p with structRef := p.structRef - 1 }) s.streams j).child = (s.streams j).child := by rw [structUnref_eq]
  refine counted_run h htodo (fun j _ => ?_) (fun j _ => ?_) (fun j hj => ?_) ?_
  · rw [linkAbove_congr hchild, structUnref_eq]
    by_cases hj : j = i
    · simp [hj, owes]
      omega
    · simp [hj, owes, Ne.symm hj]
  · rw [linkAbove_congr hchild, structUnref_eq]
    rfl
  · rw [structUnref_eq, structUnref_eq]
    exact h.parents j hj
  · rw [structUnref_eq]
    exact h.last

theorem counted_break (h : Counted s) (htodo : s.todo a = .structUnref i :: rest) :
    Counted (setTodo a ([.unlink i, .unref (i + 1)] ++ rest)
      { s with streams := streamRef (i + 1) (modify i (fun p => { p with structRef := p.structRef - 1 }) s.streams) }) := by
  have heq (j : Nat) : streamRef (i + 1) (modify i (fun p => { p with structRef := p.structRef - 1 }) s.streams) j =
      { s.streams j with structRef := (s.streams j).structRef - if j = i then 1 else 0
                         refcnt := (s.streams j).refcnt + if j = i + 1 then 1 else 0 } := by
    rw [streamRef_eq, structUnref_eq]
  have hchild (j : Nat) : (streamRef (i + 1) (modify i (fun p => { p with structRef := p.structRef - 1 }) s.streams) j).child = (s.streams j).child := by rw [heq]
  refine counted_run h htodo (fun j _ => ?_) (fun j _ => ?_) (fun j hj => ?_) ?_
  · rw [linkAbove_congr hchild, heq]
    by_cases hj : j = i
    · simp [hj, owes]
      omega
    · simp [hj, owes, Ne.symm hj]
  · rw [linkAbove_congr hchild, heq]
    by_cases hj : j = i + 1
    · simp [hj, gives]
      omega
    · simp [hj, gives, Ne.symm hj]
  · rw [heq, heq]
    exact h.parents j hj
  · rw [heq]
    exact h.last

theorem counted_unlink (h : Counted s) (htodo : s.todo a = .unlink i :: rest)
    (hchild : (s.streams i).child = true) :
    Counted (setTodo a ([.structUnref (i + 1), .unref (i + 1), .unref i] ++ rest)
      { s with streams := modify i (fun p => { p with child := false })
                            (modify (i + 1) (fun p => { p with parent := false }) s.streams) }) := by
  have habove (j : Nat) : linkAbove (modify i (fun p => { p with child := false })
      (modify (i + 1) (fun p => { p with parent := false }) s.streams)) j =
        (linkAbove s.streams j && decide (j ≠ i + 1)) := by
    cases j with
    | zero => rfl
    | succ j =>
        rw [linkAbove, unlink_eq]
        simp [linkAbove]
  have hlink : linkAbove s.streams (i + 1) = true := hchild
  refine counted_run h htodo (fun j _ => ?_) (fun j _ => ?_) (fun j hj => ?_) ?_
  · rw [habove, unlink_eq]
    by_cases hj : j = i + 1
    · simp [hj, hlink, owes, one]
      omega
    · simp [hj, owes, Ne.symm hj]
  · rw [habove, unlink_eq]
    by_cases hj : j = i + 1
    · simp [hj, hlink, gives, one]
      omega
    · by_cases hj' : j = i
      · simp [hj', hchild, gives, one]
        omega
      · simp [hj, hj', gives, Ne.symm hj, Ne.symm hj']
  · have hparent := h.parents j hj
    rw [unlink_eq, unlink_eq]
    simp [hparent]
  · rw [unlink_eq]
    simp [h.last]

theorem counted_unref (h : Counted s) (htodo : s.todo a = .unref i :: rest) :
    Counted (setTodo a ([] ++ rest) { s with streams := streamUnref i s.streams }) := by
  have hchild (j : Nat) : (streamUnref i s.streams j).child = (s.streams j).child := by rw [streamUnref_eq]
  refine counted_run h htodo (fun j _ => ?_) (fun j _ => ?_) (fun j hj => ?_) ?_
  · rw [linkAbove_congr hchild, streamUnref_eq]
    rfl
  · rw [linkAbove_congr hchild, streamUnref_eq]
    by_cases hj : j = i
    · simp [hj, gives]
      omega
    · simp [hj, gives, Ne.symm hj]
  · rw [streamUnref_eq, streamUnref_eq]
    exact h.parents j hj
  · rw [streamUnref_eq]
    exact h.last

theorem counted_grab (h : Counted s) {poll : Bool} {top : Nat} (htodo : s.todo a = .grab i poll :: rest) :
    Counted (setTodo a ((if poll then [.structUnref top] else [.callback i top, .structUnref top]) ++ rest)
      { s with streams := structRef top s.streams }) := by
  have howes (j : Nat) : owed (owes j) (if poll then [.structUnref top] else [.callback i top, .structUnref top]) =
      if top = j then 1 else 0 := by
    cases poll <;> simp [owes]
  have hgives (j : Nat) : owed (gives j) (if poll then [.structUnref top] else [.callback i top, .structUnref top]) = 0 := by
    cases poll <;> rfl
  have hchild (j : Nat) : (structRef top s.streams j).child = (s.streams j).child := by rw [structRef_eq]
  refine counted_run h htodo (fun j _ => ?_) (fun j _ => ?_) (fun j hj => ?_) ?_
  · rw [linkAbove_congr hchild, structRef_eq, howes]
    by_cases hj : j = top
    · simp [hj, owes]
      omega
    · simp [hj, owes, Ne.symm hj]
  · rw [linkAbove_congr hchild, structRef_eq, hgives]
    rfl
  · rw [structRef_eq, structRef_eq]
    exact h.parents j hj
  · rw [structRef_eq]
    exact h.last

/-! The sources -/

omit [Fintype T] in
theorem todo_setTodo (a : Option T) (todo : List Frame) (s : Stack T) : (setTodo a todo s).todo a = todo :=
  Function.update_self _ _ _

omit [Fintype T] in
theorem todo_other {b : Option T} (hb : b ≠ a) (todo : List Frame) (s : Stack T) : (setTodo a todo s).todo b = s.todo b :=
  Function.update_of_ne hb _ _

omit [Fintype T] in
/-- A frame that was not left by this step was there before. -/
theorem mem_update {todo todo' : Option T → List Frame} (htodo : todo' = Function.update todo a (frames ++ rest))
    (hrest : rest <:+ todo a) {b : Option T} {g : Frame} (hmem : g ∈ todo' b) : (b = a ∧ g ∈ frames) ∨ g ∈ todo b := by
  rw [htodo] at hmem
  by_cases hb : b = a
  · subst hb
    rw [Function.update_self] at hmem
    rcases List.mem_append.mp hmem with hmem | hmem
    · exact .inl ⟨rfl, hmem⟩
    · exact .inr (hrest.mem hmem)
  · rw [Function.update_of_ne hb] at hmem
    exact .inr hmem

omit [Fintype T] in
theorem mem_run (htodo : s.todo a = f :: rest) {b : Option T} {g : Frame} {streams : Streams}
    (hmem : g ∈ (setTodo a (frames ++ rest) { s with streams := streams }).todo b) : (b = a ∧ g ∈ frames) ∨ g ∈ s.todo b :=
  mem_update rfl (htodo ▸ List.suffix_cons f rest) hmem

omit [DecidableEq T] in
theorem sourced_same (h : Sourced s) {t : Stack T} (hdepth : t.depth = s.depth) (hattached : t.attached = s.attached)
    (hsource : ∀ j, (t.streams j).source = (s.streams j).source)
    (href : ∀ j, (t.streams j).sourceRef = (s.streams j).sourceRef)
    (hdebt : debt detaching t.todo = debt detaching s.todo)
    (hold : ∀ b g, detaching g = 1 → g ∈ t.todo b → g ∈ s.todo b) : Sourced t where
  refs i := by
    rw [hsource, href]
    exact h.refs i
  depth i := by
    rw [href, hdepth]
    exact h.depth i
  single := by
    rw [hdebt, hattached]
    exact h.single
  attached hi i := by
    rw [hsource, hdepth]
    exact h.attached (hattached ▸ hi) i
  detach b j hmem i := by
    rw [hsource, hdepth]
    exact h.detach b j (hold b _ rfl hmem) i
  descend b j hmem i := by
    rw [hsource, hdepth]
    exact h.descend b j (hold b _ rfl hmem) i
  finished hi hzero i := by
    rw [hsource, hdepth]
    exact h.finished (hattached ▸ hi) (hdebt ▸ hzero) i

/-- A frame that takes no source off leaves no call that does. -/
theorem sourced_run (h : Sourced s) (htodo : s.todo a = f :: rest) {streams : Streams}
    (hsource : ∀ j, (streams j).source = (s.streams j).source)
    (href : ∀ j, (streams j).sourceRef = (s.streams j).sourceRef) (hf : detaching f = 0)
    (hframes : ∀ g ∈ frames, detaching g = 0) : Sourced (setTodo a (frames ++ rest) { s with streams := streams }) := by
  have hdebt := debt_run htodo detaching frames streams
  rw [hf, owed_eq_zero hframes] at hdebt
  refine sourced_same h rfl rfl hsource href (by omega) fun b g hg hmem => ?_
  rcases mem_run htodo hmem with ⟨-, hmem⟩ | hmem
  · rw [hframes g hmem] at hg
    cases hg
  · exact hmem

/-- Who takes the sources off is alone. -/
theorem sourced_alone (h : Sourced s) (htodo : s.todo a = f :: rest) (hf : detaching f = 1) :
    s.attached = false ∧ (∀ g ∈ rest, detaching g = 0) ∧ ∀ b, b ≠ a → ∀ g ∈ s.todo b, detaching g = 0 := by
  have hsingle := h.single
  have hpos : 0 < detaching f := by omega
  have hmem : f ∈ s.todo a := htodo ▸ List.mem_cons_self
  have hdebt := debt_pos detaching_nonneg hmem hpos
  cases hattached : s.attached with
  | true =>
      rw [hattached, one, if_pos rfl] at hsingle
      omega
  | false =>
      rw [hattached] at hsingle
      exact ⟨rfl, Debts.alone detaching_nonneg (by simpa [one] using hsingle) htodo hpos⟩

/-- The next call of z_stream_detach_source, where the streams up to i are
done. -/
theorem sourced_next (h : Sourced s) (htodo : s.todo a = f :: rest) (hf : detaching f = 1) {streams : Streams}
    (href : ∀ j, (streams j).sourceRef = (s.streams j).sourceRef)
    (hsource : ∀ j, (streams j).source = true → (s.streams j).source = true) (hframes : owed detaching frames ≤ 1)
    (hdetach : ∀ j, .detach j ∈ frames → ∀ i, i ≤ s.depth → (streams i).source = decide (j ≤ i))
    (hdescend : ∀ j, .descend j ∈ frames → ∀ i, i ≤ s.depth → (streams i).source = decide (j < i))
    (hover : owed detaching frames = 0 → ∀ i, i ≤ s.depth → (streams i).source = false) :
    Sourced (setTodo a (frames ++ rest) { s with streams := streams }) := by
  obtain ⟨hattached, hrest, hothers⟩ := sourced_alone h htodo hf
  have hdebt := debt_run htodo detaching frames streams
  have hsingle := h.single
  have hnone {b : Option T} {g : Frame} (hg : detaching g = 1)
      (hmem : g ∈ (setTodo a (frames ++ rest) { s with streams := streams }).todo b) : g ∈ frames := by
    by_cases hb : b = a
    · subst hb
      rw [todo_setTodo] at hmem
      rcases List.mem_append.mp hmem with hmem | hmem
      · exact hmem
      · rw [hrest g hmem] at hg
        cases hg
    · rw [todo_other hb] at hmem
      rw [hothers b hb g hmem] at hg
      cases hg
  have hnot : (setTodo a (frames ++ rest) { s with streams := streams }).attached = false := hattached
  rw [hattached] at hsingle
  rw [hf] at hdebt
  have hle : debt detaching s.todo ≤ 1 := by simpa [one] using hsingle
  constructor
  · intro i hi
    have hi' : (streams i).source = true := hi
    change (streams i).sourceRef = true
    rw [href]
    exact h.refs i (hsource i hi')
  · intro i hi
    have hi' : (streams i).sourceRef = true := hi
    rw [href] at hi'
    exact h.depth i hi'
  · rw [hnot, one, if_neg Bool.false_ne_true]
    omega
  · intro hi
    rw [hnot] at hi
    cases hi
  · intro b j hmem
    exact hdetach j (hnone rfl hmem)
  · intro b j hmem
    exact hdescend j (hnone rfl hmem)
  · intro _ hzero
    have hone : 1 ≤ debt detaching s.todo := by
      have hmem : f ∈ s.todo a := htodo ▸ List.mem_cons_self
      have hpos := debt_pos detaching_nonneg hmem (hf ▸ Int.one_pos)
      omega
    exact hover (by omega)

theorem sourced_detach (h : Sourced s) (htodo : s.todo a = .detach i :: rest) :
    Sourced (setTodo a ([.descend i, .structUnref i] ++ rest)
      { s with streams := modify i (fun p => { p with source := false }) s.streams }) := by
  have hsource := h.detach a i (htodo ▸ List.mem_cons_self)
  refine sourced_next h htodo rfl (fun j => by rw [unsource_eq]) (fun j => ?_) (Int.le_refl 1) (fun j hj => ?_)
    (fun j hj k hk => ?_) fun hzero => ?_
  · rw [unsource_eq, Bool.and_eq_true]
    exact And.left
  · simp at hj
  · have hji : j = i := by simpa using hj
    rw [unsource_eq, hsource k hk, hji, ← Bool.decide_and]
    exact decide_eq_decide.mpr (by omega)
  · cases hzero

theorem sourced_descend (h : Sourced s) (htodo : s.todo a = .descend i :: rest) (hchild : (s.streams i).child = decide (i < s.depth)) :
    Sourced (setTodo a ((if (s.streams i).child then [.detach (i + 1)] else []) ++ rest) s) := by
  have hsource := h.descend a i (htodo ▸ List.mem_cons_self)
  rw [hchild]
  by_cases hi : i < s.depth
  · rw [if_pos (decide_eq_true hi)]
    refine sourced_next h htodo rfl (fun j => rfl) (fun j => id) (Int.le_refl 1) (fun j hj k hk => ?_)
      (fun j hj => ?_) fun hzero => ?_
    · have hji : j = i + 1 := by simpa using hj
      rw [hsource k hk, hji]
      rfl
    · simp at hj
    · cases hzero
  · rw [if_neg (by rw [decide_eq_true_iff]; exact hi)]
    refine sourced_next h htodo rfl (fun j => rfl) (fun j => id) Int.one_nonneg (fun j hj => absurd hj List.not_mem_nil)
      (fun j hj => absurd hj List.not_mem_nil) fun _ k hk => ?_
    rw [hsource k hk, decide_eq_false (by omega)]

end Libzorpll.StackSteps
