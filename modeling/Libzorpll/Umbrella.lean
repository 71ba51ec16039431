import Libzorpll.StreamStack
import Libzorpll.Run

/-! The umbrella states of the streams of a program, over the attaching and
detaching of streams. -/

namespace Libzorpll.Umbrella

open Relation StreamStack Links

variable {ι : Type}

def Edge (s : Streams ι) (a b : ι) : Prop := (s a).child = some b

abbrev Above (s : Streams ι) : ι → ι → Prop := TransGen (Edge s)

abbrev Reaches (s : Streams ι) : ι → ι → Prop := ReflTransGen (Edge s)

def Flag (s : Streams ι) (a : ι) (i : Nat) : Prop := (s a).umbrellaFlags.getLsbD i = true

instance (s : Streams ι) (a : ι) (i : Nat) : Decidable (Flag s a i) :=
  inferInstanceAs (Decidable (_ = true))

instance [DecidableEq ι] (s : Streams ι) (a b : ι) : Decidable (Edge s a b) :=
  inferInstanceAs (Decidable (_ = some b))

/-- The pointers of all streams agree, and no stream is below itself. -/
structure Linked (s : Streams ι) : Prop where
  parent : ∀ a b, (s a).child = some b ↔ (s b).parent = some a
  acyclic : Acyclic (Edge s)

/-- The umbrella state of a stream has those of its flags that no stream above
it has. -/
def Matches (s : Streams ι) : Prop :=
  ∀ b i, (s b).umbrellaState.getLsbD i = true ↔ Flag s b i ∧ ∀ a, Above s a b → ¬Flag s a i

theorem edge_congr {s t : Streams ι} (h : ∀ a, (t a).child = (s a).child) : Edge t = Edge s := by
  funext a b
  rw [Edge, Edge, h]

theorem flag_congr {s t : Streams ι} (h : ∀ a, (t a).umbrellaFlags = (s a).umbrellaFlags) (a : ι)
    (i : Nat) : Flag t a i ↔ Flag s a i := by
  rw [Flag, Flag, h]

theorem linked_congr {s t : Streams ι} (hs : Linked s) (hchild : ∀ a, (t a).child = (s a).child)
    (hparent : ∀ a, (t a).parent = (s a).parent) : Linked t := by
  constructor
  · intro a b
    rw [hchild, hparent]
    exact hs.parent a b
  · rw [edge_congr hchild]
    exact hs.acyclic

theorem Linked.top {s : Streams ι} (hs : Linked s) {b : ι} (hb : (s b).parent = none) (a : ι) :
    ¬Above s a b := by
  intro hab
  obtain ⟨c, -, hcb⟩ := TransGen.tail'_iff.mp hab
  have hparent := (hs.parent c b).mp hcb
  rw [hb] at hparent
  cases hparent

theorem not_above_of_child {s : Streams ι} {a : ι} (ha : (s a).child = none) (b : ι) :
    ¬Above s a b := by
  intro hab
  obtain ⟨c, hac, -⟩ := TransGen.head'_iff.mp hab
  cases ha.symm.trans hac

variable [DecidableEq ι]

@[simp] theorem modify_self (s : Streams ι) (p : ι) (f : Stream ι → Stream ι) :
    modify s p f p = f (s p) := Function.update_self ..

@[simp] theorem modify_of_ne (s : Streams ι) {p a : ι} (h : a ≠ p) (f : Stream ι → Stream ι) :
    modify s p f a = s a := Function.update_of_ne h ..

/-- A field that an update of one stream leaves alone. -/
theorem modify_field {β : Type} (g : Stream ι → β) {f : Stream ι → Stream ι}
    (s : Streams ι) (p a : ι) (h : ∀ p, g (f p) = g p := by intro _; rfl) :
    g (modify s p f a) = g (s a) := by
  by_cases ha : a = p
  · subst ha
    rw [modify_self, h]
  · rw [modify_of_ne s ha]

/-- Masking reaches the streams below, and no other. -/
theorem maskChildren_spec (flags : BitVec 32) (fuel : Nat) {p : ι} {s : Streams ι}
    (h : Acyclic (Edge s)) [Finite ι] (hfuel : reach (Edge s) p < fuel) :
    ∃ t, maskChildren flags fuel p s = .ok t ∧ ∀ b,
      (Above s p b → t b = { s b with umbrellaState := (s b).umbrellaState &&& ~~~flags }) ∧
      (¬Above s p b → t b = s b) := by
  induction fuel generalizing p s with
  | zero => exact absurd hfuel (Nat.not_lt_zero _)
  | succ fuel ih =>
      cases hc : (s p).child with
      | none =>
          refine ⟨s, by rw [maskChildren, hc], fun b => ⟨fun hb => ?_, fun _ => rfl⟩⟩
          exact absurd hb (not_above_of_child hc b)
      | some c =>
          let u := modify s c (fun p => { p with umbrellaState := p.umbrellaState &&& ~~~flags })
          have hedge : Edge u = Edge s := edge_congr (fun a => modify_field Stream.child s c a)
          have hpc : Edge s p c := hc
          have hlt : reach (Edge u) c < fuel := by
            have hless := reach_lt h hpc
            rw [hedge]
            omega
          obtain ⟨t, hrun, ht⟩ := ih (hedge.symm ▸ h) hlt
          have hbelow : ∀ b, Above s p b ↔ b = c ∨ Above u c b := by
            intro b
            rw [Above, Above, hedge]
            constructor
            · intro hb
              obtain ⟨d, hpd, hdb⟩ := TransGen.head'_iff.mp hb
              obtain rfl : c = d := Option.some.inj (hc.symm.trans hpd)
              exact (reflTransGen_iff_eq_or_transGen.mp hdb)
            · rintro (rfl | hb)
              · exact TransGen.single hpc
              · exact TransGen.head hpc hb
          refine ⟨t, by rw [maskChildren, hc]; exact hrun, fun b => ?_⟩
          have hcc : ¬Above u c c := by
            rw [Above, hedge]
            exact h c
          obtain ⟨hmasked, hkept⟩ := ht b
          rw [hbelow b]
          by_cases hb : b = c
          · subst hb
            refine ⟨fun _ => ?_, fun hno => absurd (.inl rfl) hno⟩
            rw [hkept hcc]
            exact modify_self ..
          · have hsame : u b = s b := modify_of_ne s hb _
            rw [hsame] at hmasked hkept
            exact ⟨fun hor => hmasked (hor.resolve_left hb), fun hno => hkept (fun hu => hno (.inr hu))⟩

theorem maskChildren_diverges (flags : BitVec 32) (fuel : Nat) {p : ι} {s : Streams ι}
    (h : ∀ b, Reaches s p b → (s b).child ≠ none) :
    maskChildren flags fuel p s = .error .diverges := by
  induction fuel generalizing p s with
  | zero => rfl
  | succ fuel ih =>
      cases hc : (s p).child with
      | none => exact absurd hc (h p .refl)
      | some c =>
          rw [maskChildren, hc]
          apply ih
          intro b hb
          have hchild : ∀ a, (modify s c (fun p =>
              { p with umbrellaState := p.umbrellaState &&& ~~~flags }) a).child = (s a).child :=
            fun a => modify_field Stream.child s c a
          rw [hchild]
          rw [Reaches, edge_congr hchild] at hb
          exact h b (.head hc hb)

/-- What detaching the child c of p comes to. -/
structure Detached (p c : ι) (s t : Streams ι) : Prop where
  linked : Linked t
  edges : Adds (Edge t) (Edge s) p c
  flags : ∀ a, (t a).umbrellaFlags = (s a).umbrellaFlags
  child : (t p).child = none
  parent : (t c).parent = none
  parents : ∀ a, a ≠ c → (t a).parent = (s a).parent
  state : (t c).umbrellaState = (s c).umbrellaFlags
  states : ∀ a, a ≠ c → (t a).umbrellaState = (s a).umbrellaState

theorem detachChild_spec {s : Streams ι} (hs : Linked s) {self c : ι} (hc : (s self).child = some c) :
    ∃ t, detachChild self s = .ok t ∧ Detached self c s t := by
  let u := modify s c (fun p => { p with umbrellaState := p.umbrellaFlags, parent := none })
  let t := modify u self (fun p => { p with child := none })
  have hne : self ≠ c := by
    rintro rfl
    exact hs.acyclic self (.single hc)
  have hparent : (s c).parent = some self := (hs.parent self c).mp hc
  have hself : (t self).child = none := congrArg Stream.child (modify_self u self _)
  have hchild : ∀ a, a ≠ self → (t a).child = (s a).child := by
    intro a ha
    rw [show t a = u a from modify_of_ne u ha _]
    exact modify_field Stream.child s c a
  have htop : (t c).parent = none := by
    rw [show t c = u c from modify_of_ne u hne.symm _]
    exact congrArg Stream.parent (modify_self s c _)
  have hparents : ∀ a, a ≠ c → (t a).parent = (s a).parent := by
    intro a ha
    rw [show (t a).parent = (u a).parent from modify_field Stream.parent u self a]
    exact congrArg Stream.parent (modify_of_ne s ha _)
  have hedges : Adds (Edge t) (Edge s) self c := by
    intro a b
    rw [Edge, Edge]
    by_cases ha : a = self
    · subst ha
      rw [hself, hc]
      simp [eq_comm]
    · rw [hchild a ha]
      simp [ha]
  refine ⟨t, ?_, ⟨?_, (hs.acyclic.removes hedges).1⟩, hedges, ?_, hself, htop, hparents, ?_, ?_⟩
  · rw [detachChild, hc]
    simp only [hparent, ↓reduceIte]
    rfl
  · intro a b
    by_cases ha : a = self
    · subst ha
      rw [hself]
      by_cases hb : b = c
      · subst hb
        simp [htop]
      · rw [hparents b hb, ← hs.parent, hc]
        simp [Ne.symm hb]
    · rw [hchild a ha]
      by_cases hb : b = c
      · subst hb
        rw [htop, hs.parent, hparent]
        simp [Ne.symm ha]
      · rw [hparents b hb]
        exact hs.parent a b
  · intro a
    rw [show (t a).umbrellaFlags = (u a).umbrellaFlags from
      modify_field Stream.umbrellaFlags u self a]
    exact modify_field Stream.umbrellaFlags s c a
  · rw [show t c = u c from modify_of_ne u hne.symm _]
    exact congrArg Stream.umbrellaState (modify_self s c _)
  · intro a ha
    rw [show (t a).umbrellaState = (u a).umbrellaState from
      modify_field Stream.umbrellaState u self a]
    exact congrArg Stream.umbrellaState (modify_of_ne s ha _)

theorem detachChild_none {s : Streams ι} {self : ι} (hc : (s self).child = none) :
    detachChild self s = .ok s := by
  rw [detachChild, hc]

/-- What attaching the stream c under p comes to. -/
structure Attached (p c : ι) (s t : Streams ι) : Prop where
  apart : ¬Reaches s c p
  linked : Linked t
  edges : Adds (Edge s) (Edge t) p c
  flags : ∀ a, (t a).umbrellaFlags = (s a).umbrellaFlags
  masked : ∀ a, Reaches s c a →
    (t a).umbrellaState = (s a).umbrellaState &&& ~~~(s p).umbrellaFlags
  kept : ∀ a, ¬Reaches s c a → (t a).umbrellaState = (s a).umbrellaState

/-- The streams with the pointers of an attached child, before the masking. -/
structure Joined (p c : ι) (s u : Streams ι) : Prop where
  child : ∀ a, (u a).child = if a = p then some c else (s a).child
  parent : ∀ a, (u a).parent = if a = c then some p else (s a).parent
  flags : ∀ a, (u a).umbrellaFlags = (s a).umbrellaFlags
  state : ∀ a, (u a).umbrellaState = (s a).umbrellaState

theorem attachChild_joined [Fintype ι] {s : Streams ι} {self new : ι} (hnew : (s new).parent = none) :
    ∃ u, Joined self new s u ∧ attachChild self new s =
      maskChildren (s self).umbrellaFlags (Fintype.card ι + 1) self u := by
  let v := modify s self (fun p =>
    { p with stackDepth := (s new).stackDepth + 1, name := (s new).name })
  let w := modify v new (fun p => { p with parent := some self })
  let u := modify w self (fun p => { p with child := some new, timeout := (w new).timeout })
  have hflags : ∀ a, (u a).umbrellaFlags = (s a).umbrellaFlags := by
    intro a
    rw [modify_field Stream.umbrellaFlags w self a, modify_field Stream.umbrellaFlags v new a,
      modify_field Stream.umbrellaFlags s self a]
  refine ⟨u, ⟨?_, ?_, hflags, ?_⟩, ?_⟩
  · intro a
    split_ifs with ha
    · subst ha
      exact congrArg Stream.child (modify_self w a _)
    · rw [show u a = w a from modify_of_ne w ha _, modify_field Stream.child v new a,
        modify_field Stream.child s self a]
  · intro a
    rw [modify_field Stream.parent w self a]
    split_ifs with ha
    · subst ha
      exact congrArg Stream.parent (modify_self v a _)
    · rw [show w a = v a from modify_of_ne v ha _, modify_field Stream.parent s self a]
  · intro a
    rw [modify_field Stream.umbrellaState w self a, modify_field Stream.umbrellaState v new a,
      modify_field Stream.umbrellaState s self a]
  · rw [← hflags self, attachChild, if_pos hnew]

theorem Joined.edges {self new : ι} {s u : Streams ι} (h : Joined self new s u)
    (hself : (s self).child = none) : Adds (Edge s) (Edge u) self new := by
  intro a b
  rw [Edge, Edge, h.child a]
  split_ifs with ha
  · subst ha
    rw [hself]
    simp [eq_comm]
  · simp [ha]

theorem Joined.linked {self new : ι} {s u : Streams ι} (h : Joined self new s u) (hs : Linked s)
    (hself : (s self).child = none) (hnew : (s new).parent = none) (hapart : ¬Reaches s new self) :
    Linked u := by
  refine ⟨fun a b => ?_, hs.acyclic.adds (h.edges hself) hapart⟩
  rw [h.child a, h.parent b]
  split_ifs with ha hb hb
  · simp [ha, hb]
  · subst ha
    rw [← hs.parent, hself]
    simp [Ne.symm hb]
  · subst hb
    rw [hs.parent, hnew]
    simp [Ne.symm ha]
  · exact hs.parent a b

theorem attachChild_spec [Fintype ι] {s : Streams ι} (hs : Linked s) {self new : ι}
    (hself : (s self).child = none) (hnew : (s new).parent = none) :
    (attachChild self new s = .error .diverges ∧ Reaches s new self) ∨
      ∃ t, attachChild self new s = .ok t ∧ Attached self new s t := by
  obtain ⟨u, hu, hrun⟩ : ∃ u, Joined self new s u ∧ _ := attachChild_joined hnew
  have hedges := hu.edges hself
  have hbelow : ∀ b, Above u self b ↔ Reaches s new b := by
    intro b
    rw [Above, transGen_adds hedges]
    exact ⟨fun h => h.elim (fun hb => absurd hb (not_above_of_child hself b)) And.right,
      fun h => .inr ⟨.refl, h⟩⟩
  rw [hrun]
  by_cases hcycle : Reaches s new self
  · refine .inl ⟨maskChildren_diverges _ _ fun b hb => ?_, hcycle⟩
    have hfun : ∀ a b c, Edge u a b → Edge u a c → b = c :=
      fun a b c hab hac => Option.some.inj (hab.symm.trans hac)
    have hback := transGen_of_cycle hfun ((hbelow self).mpr hcycle) hb
    exact fun hnone => not_above_of_child hnone self hback
  · have hlinked := hu.linked hs hself hnew hcycle
    obtain ⟨t, hmask, ht⟩ := maskChildren_spec (s self).umbrellaFlags (Fintype.card ι + 1)
      hlinked.acyclic (Nat.lt_succ_of_le (reach_le (Edge u) self))
    have hfield {β : Type} (g : Stream ι → β)
        (hg : ∀ p : Stream ι, ∀ x, g { p with umbrellaState := x } = g p) (b : ι) :
        g (t b) = g (u b) := by
      obtain ⟨hmasked, hkept⟩ := ht b
      by_cases hb : Above u self b
      · rw [hmasked hb, hg]
      · rw [hkept hb]
    have hchild := hfield Stream.child (fun _ _ => rfl)
    refine .inr ⟨t, hmask, hcycle, ?_, ?_, ?_, ?_, ?_⟩
    · exact linked_congr hlinked hchild (hfield Stream.parent (fun _ _ => rfl))
    · rwa [edge_congr hchild]
    · intro a
      rw [hfield Stream.umbrellaFlags (fun _ _ => rfl), hu.flags]
    · intro a ha
      rw [(ht a).1 ((hbelow a).mpr ha), ← hu.state]
    · intro a ha
      rw [(ht a).2 (fun hab => ha ((hbelow a).mp hab)), hu.state]

/-- Whatever of a stream below the child of self is hidden by self, or by a
stream above it, is hidden by a stream in between as well. -/
def Clears (s : Streams ι) (self : ι) : Prop :=
  ∀ c d i, (s self).child = some c → Above s c d → Flag s d i →
    (∃ a, Reaches s a self ∧ Flag s a i) → ∃ e, Reaches s c e ∧ Above s e d ∧ Flag s e i

/-- Whatever of new, or of a stream below it, a stream above self would hide,
is hidden by self or a stream in between as well. -/
def Covers (s : Streams ι) (self new : ι) : Prop :=
  ∀ b i, Reaches s new b → Flag s b i → (∃ a, Above s a self ∧ Flag s a i) →
    Flag s self i ∨ ∃ e, Reaches s new e ∧ Above s e b ∧ Flag s e i

omit [DecidableEq ι] in
theorem Detached.matches {p c : ι} {s t : Streams ι} (h : Detached p c s t) (hs : Matches s)
    (hpc : (s p).child = some c) (hclear : Clears s p) (hacyclic : ¬Reaches t c p) : Matches t := by
  intro b i
  rw [flag_congr h.flags b i]
  by_cases hb : b = c
  · subst hb
    rw [h.state]
    exact ⟨fun hf => ⟨hf, fun a ha => absurd ha (h.linked.top h.parent a)⟩, And.left⟩
  · rw [h.states b hb, hs b i]
    have hmono : ∀ a b, Above t a b → Above s a b :=
      fun a b hab => (transGen_adds h.edges).mpr (.inl hab)
    constructor
    · rintro ⟨hf, hall⟩
      refine ⟨hf, fun a ha hfa => hall a (hmono a b ha) ((flag_congr h.flags a i).mp hfa)⟩
    · rintro ⟨hf, hall⟩
      refine ⟨hf, fun a ha hfa => ?_⟩
      rcases (transGen_adds h.edges).mp ha with ha | ⟨hap, hcb⟩
      · exact hall a ha ((flag_congr h.flags a i).mpr hfa)
      · have hcb' : Above t c b := (reflTransGen_iff_eq_or_transGen.mp hcb).resolve_left hb
        obtain ⟨e, hce, heb, hfe⟩ := hclear c b i hpc (hmono c b hcb') hf
          ⟨a, (reflTransGen_adds h.edges).mpr (.inl hap), hfa⟩
        have hce' : Reaches t c e :=
          ((reflTransGen_adds h.edges).mp hce).elim id And.right
        rcases (transGen_adds h.edges).mp heb with heb | ⟨hep, -⟩
        · exact hall e heb ((flag_congr h.flags e i).mpr hfe)
        · exact hacyclic (hce'.trans hep)

omit [DecidableEq ι] in
theorem Attached.matches {p c : ι} {s t : Streams ι} (h : Attached p c s t) (hs : Matches s)
    (hcover : Covers s p c) : Matches t := by
  intro b i
  rw [flag_congr h.flags b i]
  have habove : ∀ a, Above t a b ↔ Above s a b ∨ (Reaches s a p ∧ Reaches s c b) :=
    fun a => transGen_adds h.edges
  by_cases hb : Reaches s c b
  · have hstate : (t b).umbrellaState.getLsbD i = true ↔
        (s b).umbrellaState.getLsbD i = true ∧ ¬Flag s p i := by
      rw [h.masked b hb, Flag]
      by_cases hi : i < 32
      · simp [hi]
      · simp [BitVec.getLsbD_of_ge _ i (Nat.le_of_not_lt hi)]
    rw [hstate, hs b i]
    constructor
    · rintro ⟨⟨hf, hall⟩, hp⟩
      refine ⟨hf, fun a ha hfa => ?_⟩
      rw [flag_congr h.flags] at hfa
      rcases (habove a).mp ha with ha | ⟨hap, -⟩
      · exact hall a ha hfa
      · rcases reflTransGen_iff_eq_or_transGen.mp hap with rfl | hap
        · exact hp hfa
        · rcases hcover b i hb hf ⟨a, hap, hfa⟩ with hp' | ⟨e, -, heb, hfe⟩
          · exact hp hp'
          · exact hall e heb hfe
    · rintro ⟨hf, hall⟩
      refine ⟨⟨hf, fun a ha hfa => ?_⟩, fun hp => ?_⟩
      · exact hall a ((habove a).mpr (.inl ha)) ((flag_congr h.flags a i).mpr hfa)
      · exact hall p ((habove p).mpr (.inr ⟨.refl, hb⟩)) ((flag_congr h.flags p i).mpr hp)
  · rw [h.kept b hb, hs b i]
    have hsame : ∀ a, Above t a b ↔ Above s a b :=
      fun a => (habove a).trans ⟨fun ho => ho.elim id (fun hr => absurd hr.2 hb), .inl⟩
    simp only [hsame, flag_congr h.flags]

/-- When z_stream_set_child keeps the states right. A child that is attached
again only loses what self does not hide of it. -/
def SetOk (s : Streams ι) (self : ι) : Option ι → Prop
  | none => Clears s self
  | some new =>
      ((s self).child = some new →
        ∀ i, Flag s new i → (∃ a, Above s a self ∧ Flag s a i) → Flag s self i) ∧
      ((s self).child ≠ some new → Clears s self ∧ Covers s self new)

/-- A stream that has a parent cannot be attached, and attaching one under
itself or a stream below it does not come back. -/
def Misplaced (s : Streams ι) (self new : ι) (e : Abort) : Prop :=
  (e = .assertion ∧ (s new).parent ≠ none ∧ (s self).child ≠ some new) ∨
    (e = .diverges ∧ Reaches s new self)

theorem reattached_matches {s t u : Streams ι} {p c : ι} (hs : Linked s) (h : Matches s)
    (hpc : (s p).child = some c) (ht : Detached p c s t) (hu : Attached p c t u)
    (hok : ∀ i, Flag s c i → (∃ a, Above s a p ∧ Flag s a i) → Flag s p i) : Matches u := by
  have hedge : Edge u = Edge s := by
    funext a b
    exact propext ((hu.edges a b).trans (ht.edges a b).symm)
  have hflags : ∀ a, (u a).umbrellaFlags = (s a).umbrellaFlags :=
    fun a => (hu.flags a).trans (ht.flags a)
  intro b i
  rw [flag_congr hflags b i]
  simp only [Above, hedge, flag_congr hflags]
  have hbit (x : BitVec 32) : (x &&& ~~~(t p).umbrellaFlags).getLsbD i = true ↔
      x.getLsbD i = true ∧ ¬Flag s p i := by
    rw [← flag_congr ht.flags, Flag]
    by_cases hi : i < 32
    · simp [hi]
    · simp [BitVec.getLsbD_of_ge _ i (Nat.le_of_not_lt hi)]
  by_cases hb : b = c
  · subst hb
    rw [hu.masked b .refl, hbit, ht.state]
    refine and_congr_right (fun hf => ⟨fun hp a ha hfa => ?_, fun hall => hall p (.single hpc)⟩)
    obtain ⟨q, haq, hqb⟩ := TransGen.tail'_iff.mp ha
    obtain rfl : q = p := by
      have hq := (hs.parent q b).mp hqb
      rw [(hs.parent p b).mp hpc] at hq
      exact (Option.some.inj hq).symm
    rcases reflTransGen_iff_eq_or_transGen.mp haq with rfl | haq
    · exact hp hfa
    · exact hp (hok i hf ⟨a, haq, hfa⟩)
  · by_cases hcb : Reaches t c b
    · rw [hu.masked b hcb, hbit, ht.states b hb, h b i]
      have hpb : Above s p b := (transGen_adds ht.edges).mpr (.inr ⟨.refl, hcb⟩)
      exact ⟨And.left, fun hr => ⟨hr, hr.2 p hpb⟩⟩
    · rw [hu.kept b hcb, ht.states b hb]
      exact h b i

/-- A path above the place where a child was is there without it. -/
theorem Detached.covers {s t : Streams ι} {p c new : ι} (ht : Detached p c s t)
    (hcover : Covers s p new) (hapart : ¬Reaches t new p) : Covers t p new := by
  intro b i hnb hf ⟨a, hap, hfa⟩
  have hflag := flag_congr ht.flags
  obtain hp | ⟨e, hne, heb, hfe⟩ := hcover b i ((reflTransGen_adds ht.edges).mpr (.inl hnb))
    ((hflag b i).mp hf) ⟨a, (transGen_adds ht.edges).mpr (.inl hap), (hflag a i).mp hfa⟩
  · exact .inl ((hflag p i).mpr hp)
  · have hne' : Reaches t new e :=
      ((reflTransGen_adds ht.edges).mp hne).resolve_right (fun hr => hapart hr.1)
    have heb' : Above t e b :=
      ((transGen_adds ht.edges).mp heb).resolve_right (fun hr => hapart (hne'.trans hr.1))
    exact .inr ⟨e, hne', heb', (hflag e i).mpr hfe⟩

theorem setChild_eq [Fintype ι] {s t : Streams ι} {self : ι} {newChild : Option ι}
    (h : detachChild self s = .ok t) :
    setChild self newChild s = newChild.elim (.ok t) (fun new => attachChild self new t) := by
  rw [setChild, h]
  cases newChild <;> rfl

/-- Setting the child of a stream keeps the states of all streams right. -/
theorem setChild_spec [Fintype ι] {s : Streams ι} (hs : Linked s) (h : Matches s) {self : ι}
    {newChild : Option ι} (hok : SetOk s self newChild) :
    (∃ e, setChild self newChild s = .error e ∧
      ∃ new, newChild = some new ∧ Misplaced s self new e) ∨
    ∃ t, setChild self newChild s = .ok t ∧ Linked t ∧ Matches t := by
  cases hc : (s self).child with
  | none =>
      rw [setChild_eq (detachChild_none hc)]
      cases newChild with
      | none => exact .inr ⟨s, rfl, hs, h⟩
      | some new =>
          have hne : (s self).child ≠ some new := by simp [hc]
          by_cases hnew : (s new).parent = none
          · rcases attachChild_spec hs hc hnew with ⟨herr, hcycle⟩ | ⟨t, ht, hatt⟩
            · exact .inl ⟨_, herr, new, rfl, .inr ⟨rfl, hcycle⟩⟩
            · exact .inr ⟨t, ht, hatt.linked, hatt.matches h (hok.2 hne).2⟩
          · exact .inl ⟨_, if_neg hnew, new, rfl, .inl ⟨rfl, hnew, hne⟩⟩
  | some c =>
      obtain ⟨t, hdet, ht⟩ := detachChild_spec hs hc
      have hapart : ¬Reaches t c self := (hs.acyclic.removes ht.edges).2
      rw [setChild_eq hdet]
      cases newChild with
      | none => exact .inr ⟨t, rfl, ht.linked, ht.matches h hc hok hapart⟩
      | some new =>
          by_cases hsame : new = c
          · subst hsame
            rcases attachChild_spec ht.linked ht.child ht.parent with ⟨-, hcycle⟩ | ⟨u, hu, hatt⟩
            · exact absurd hcycle hapart
            · exact .inr ⟨u, hu, hatt.linked, reattached_matches hs h hc ht hatt (hok.1 hc)⟩
          · have hne : (s self).child ≠ some new := by
              rw [hc]
              exact fun heq => hsame (Option.some.inj heq).symm
            obtain ⟨hclear, hcover⟩ := hok.2 hne
            by_cases hnew : (t new).parent = none
            · rcases attachChild_spec ht.linked ht.child hnew with ⟨herr, hcycle⟩ | ⟨u, hu, hatt⟩
              · exact .inl ⟨_, herr, new, rfl,
                  .inr ⟨rfl, (reflTransGen_adds ht.edges).mpr (.inl hcycle)⟩⟩
              · exact .inr ⟨u, hu, hatt.linked, hatt.matches (ht.matches h hc hclear hapart)
                  (ht.covers hcover hatt.apart)⟩
            · exact .inl ⟨_, if_neg hnew, new, rfl, .inl ⟨rfl, ht.parents new hsame ▸ hnew, hne⟩⟩

/-- When z_stream_pop keeps the states right. -/
def PopOk (s : Streams ι) (self : ι) : Prop :=
  (s self).child ≠ none →
    (∀ a i, Above s a self → Flag s a i → ¬Flag s self i) ∧ Clears s self

theorem pop_spec [Fintype ι] {s : Streams ι} (hs : Linked s) (h : Matches s) {self : ι}
    (hok : PopOk s self) :
    ∃ t, pop self s = .ok ((s self).child, t) ∧ Linked t ∧ Matches t := by
  cases hc : (s self).child with
  | none => exact ⟨s, by rw [pop, hc], hs, h⟩
  | some c =>
      obtain ⟨halone, hclear⟩ := hok (by simp [hc])
      let u := modify s self (fun p => { p with umbrellaState := p.umbrellaFlags })
      have hchild : ∀ a, (u a).child = (s a).child := fun a => modify_field Stream.child s self a
      have hflags : ∀ a, (u a).umbrellaFlags = (s a).umbrellaFlags :=
        fun a => modify_field Stream.umbrellaFlags s self a
      have hlinked : Linked u :=
        linked_congr hs hchild (fun a => modify_field Stream.parent s self a)
      have hedge : Edge u = Edge s := edge_congr hchild
      have hmatches : Matches u := by
        intro b i
        simp only [Above, hedge, flag_congr hflags]
        by_cases hb : b = self
        · subst hb
          rw [show (u b).umbrellaState = (s b).umbrellaFlags from
            congrArg Stream.umbrellaState (modify_self s b _)]
          exact ⟨fun hf => ⟨hf, fun a ha hfa => halone a i ha hfa hf⟩, And.left⟩
        · rw [show u b = s b from modify_of_ne s hb _]
          exact h b i
      have hclear' : Clears u self := by
        simp only [Clears, Above, Reaches, hedge, hchild, flag_congr hflags]
        exact hclear
      have huc : (u self).child = some c := (hchild self).trans hc
      obtain ⟨t, hdet, ht⟩ := detachChild_spec hlinked huc
      have htm := ht.matches hmatches huc hclear' (hlinked.acyclic.removes ht.edges).2
      let w := modify t c (fun p => { p with umbrellaState := p.umbrellaFlags })
      have hwchild : ∀ a, (w a).child = (t a).child := fun a => modify_field Stream.child t c a
      have hwflags : ∀ a, (w a).umbrellaFlags = (t a).umbrellaFlags :=
        fun a => modify_field Stream.umbrellaFlags t c a
      refine ⟨w, ?_, linked_congr ht.linked hwchild (fun a => modify_field Stream.parent t c a), ?_⟩
      · rw [pop, hc]
        change (setChild self none u >>= _) = _
        rw [setChild, hdet]
        rfl
      · intro b i
        simp only [Above, edge_congr hwchild, flag_congr hwflags]
        rw [← htm b i]
        by_cases hb : b = c
        · subst hb
          rw [show (w b).umbrellaState = (t b).umbrellaFlags from
            congrArg Stream.umbrellaState (modify_self t b _), ht.state, ht.flags]
        · rw [show w b = t b from modify_of_ne t hb _]

/-- What a step needs so that the states stay right. -/
def StepOk (op : StackOp ι) (s : Streams ι) : Prop :=
  match op with
  | .push self newTop => SetOk s newTop (some self)
  | .pop self => PopOk s self
  | .setChild self newChild => SetOk s self newChild

omit [DecidableEq ι] in
/-- A stream of its own can be put on top of any other. -/
theorem setOk_alone {s : Streams ι} {self new : ι} (hchild : (s self).child = none)
    (htop : ∀ a, (s a).child ≠ some self) : SetOk s self (some new) := by
  refine ⟨fun hc => ?_, fun _ => ⟨fun c d i hc => ?_, fun b i _ _ ⟨a, ha, _⟩ => ?_⟩⟩
  · cases hchild.symm.trans hc
  · cases hchild.symm.trans hc
  · obtain ⟨c, -, hc⟩ := TransGen.tail'_iff.mp ha
    exact absurd hc (htop c)

omit [DecidableEq ι] in
/-- The top of a stack can be popped if the next stream hides as much. -/
theorem popOk_of_next {s : Streams ι} {self c : ι} (hc : (s self).child = some c)
    (htop : ∀ a, (s a).child ≠ some self) (hflags : (s self).umbrellaFlags = (s c).umbrellaFlags) :
    PopOk s self := by
  have hnone (a : ι) : ¬Above s a self := by
    intro ha
    obtain ⟨d, -, hd⟩ := TransGen.tail'_iff.mp ha
    exact htop d hd
  intro _
  refine ⟨fun a i ha => absurd ha (hnone a), ?_⟩
  rintro c' d i hc' hcd - ⟨a, ha, hfa⟩
  obtain rfl : c = c' := Option.some.inj (hc.symm.trans hc')
  obtain rfl : self = a := by
    rcases reflTransGen_iff_eq_or_transGen.mp ha with heq | ha
    · exact heq
    · exact absurd ha (hnone a)
  refine ⟨c, .refl, hcd, ?_⟩
  rw [Flag, ← hflags]
  exact hfa

/-- The calls that do not come back. -/
def Refused (op : StackOp ι) (s : Streams ι) (e : Abort) : Prop :=
  match op with
  | .push self newTop => Misplaced s newTop self e
  | .pop _ => False
  | .setChild self newChild => ∃ new, newChild = some new ∧ Misplaced s self new e

theorem stackStep_spec [Fintype ι] {s : Streams ι} (hs : Linked s) (h : Matches s) {op : StackOp ι}
    (hok : StepOk op s) :
    (∃ e, stackStep op s = .error e ∧ Refused op s e) ∨
      ∃ r t, stackStep op s = .ok (r, t) ∧ Linked t ∧ Matches t := by
  cases op with
  | push self newTop =>
      have hset : SetOk s newTop (some self) := hok
      obtain ⟨e, herr, new, heq, hbad⟩ | ⟨t, hrun, ht⟩ := setChild_spec hs h hset
      · cases heq
        exact .inl ⟨e, by rw [stackStep, push, herr]; rfl, hbad⟩
      · exact .inr ⟨some newTop, t, by rw [stackStep, push, hrun]; rfl, ht⟩
  | pop self =>
      obtain ⟨t, hrun, ht⟩ := pop_spec hs h hok
      exact .inr ⟨_, t, hrun, ht⟩
  | setChild self newChild =>
      obtain ⟨e, herr, hbad⟩ | ⟨t, hrun, ht⟩ := setChild_spec hs h hok
      · exact .inl ⟨e, by rw [stackStep, herr]; rfl, hbad⟩
      · exact .inr ⟨none, t, by rw [stackStep, hrun]; rfl, ht⟩

/-- New streams, none of which has a child. -/
def streamsNew (name : ι → String) (flags : ι → BitVec 32) : Streams ι :=
  fun a => streamNew (name a) (flags a)

omit [DecidableEq ι] in
theorem streamsNew_linked (name : ι → String) (flags : ι → BitVec 32) :
    Linked (streamsNew name flags) := by
  constructor
  · intro a b
    simp [streamsNew, streamNew]
  · intro a
    exact not_above_of_child rfl a

omit [DecidableEq ι] in
theorem streamsNew_matches (name : ι → String) (flags : ι → BitVec 32) :
    Matches (streamsNew name flags) := by
  intro b i
  have hnone (a : ι) : ¬Above (streamsNew name flags) a b := not_above_of_child rfl b
  exact ⟨fun hf => ⟨hf, fun a ha => absurd ha (hnone a)⟩, And.left⟩

/-- In every run that takes no stream away from above others, and attaches
none below others, whose flags would have to change with it, the umbrella
states match the stacks. -/
theorem umbrella_matches [Fintype ι] (name : ι → String) (flags : ι → BitVec 32)
    (ops : List (StackOp ι)) (hok : Run.Meets stackStep StepOk ops (streamsNew name flags)) :
    Matches (streamsNew name flags) ∧
      Run.Always stackStep Refused (fun _ _ _ t => Matches t) ops (streamsNew name flags) := by
  let Inv (s : Streams ι) : Prop := Linked s ∧ Matches s
  have hnew : Inv (streamsNew name flags) :=
    ⟨streamsNew_linked name flags, streamsNew_matches name flags⟩
  refine ⟨hnew.2, Run.always_induct ?_ ops hnew hok⟩
  rintro op s ⟨hlinked, hmatches⟩ hstep
  obtain herr | ⟨r, t, hrun, ht⟩ := stackStep_spec hlinked hmatches hstep
  · exact .inl herr
  · exact .inr ⟨r, t, hrun, ht, ht.2⟩

/-- Three streams that hide the same, of which the top one is popped again. -/
theorem umbrella_matches_popped :
    Matches (streamsNew (fun _ => "") (fun _ : Fin 3 => 1)) ∧
      Run.Always stackStep Refused (fun _ _ _ t => Matches t) [.push 2 1, .push 1 0, .pop 0]
        (streamsNew (fun _ => "") (fun _ : Fin 3 => 1)) :=
  umbrella_matches (fun _ => "") (fun _ : Fin 3 => 1) [.push 2 1, .push 1 0, .pop 0]
    (Run.meets_cons (setOk_alone (by decide) (by decide)) rfl
      (Run.meets_cons (setOk_alone (by decide) (by decide)) rfl
        (Run.meets_cons (popOk_of_next (c := 1) (by decide) (by decide) (by decide)) rfl trivial)))

/-- A stream two below the popped one stays hidden. -/
theorem umbrella_not_matches :
    ¬∀ (n : Nat) (name : Fin n → String) (flags : Fin n → BitVec 32) (ops : List (StackOp (Fin n))),
      Run.Always stackStep Refused (fun _ _ _ t => Matches t) ops (streamsNew name flags) := by
  intro h
  have hrun := h 3 (fun _ => "") (fun a => if a = 1 then 0 else 1) [.push 2 1, .push 1 0, .pop 0]
  obtain ⟨-, hrun⟩ := Run.always_cons hrun rfl
  obtain ⟨-, hrun⟩ := Run.always_cons hrun rfl
  obtain ⟨hmatches, -⟩ := Run.always_cons hrun rfl
  have hbare : ∀ {t : Streams (Fin 3)}, (∀ a c, Edge t a c → ¬Flag t a 0) →
      ∀ a, Above t a 2 → ¬Flag t a 0 := by
    intro t hall a ha
    obtain ⟨c, hac, -⟩ := TransGen.head'_iff.mp ha
    exact hall a c hac
  have hstate := (hmatches 2 0).mpr ⟨by decide, hbare (by decide)⟩
  exact absurd hstate (by decide)

end Libzorpll.Umbrella
