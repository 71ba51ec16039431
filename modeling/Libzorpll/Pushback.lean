import Mathlib.Data.List.Forall2
import Libzorpll.StreamUnget
import Libzorpll.LineSafety

/-! What becomes of a packet that is pushed back to the top of a stack. -/

namespace Libzorpll.Pushback

open ChildStream StreamLine LineBuffer LineSafety StreamUnget

variable {κ : Type}

/-- Two computations stop with the same error, or give one result and related
states. -/
def Same {ρ σ τ : Type} (R : σ → τ → Prop) (x : Except Abort (ρ × σ)) (y : Except Abort (ρ × τ)) :
    Prop :=
  (∃ e, x = .error e ∧ y = .error e) ∨ ∃ r s t, x = .ok (r, s) ∧ y = .ok (r, t) ∧ R s t

theorem Same.bind {ρ ρ' σ σ' τ τ' : Type} {R : σ → τ → Prop} {R' : σ' → τ' → Prop}
    {x : Except Abort (ρ × σ)} {y : Except Abort (ρ × τ)}
    {f : ρ × σ → Except Abort (ρ' × σ')} {g : ρ × τ → Except Abort (ρ' × τ')} (h : Same R x y)
    (hcont : ∀ r s t, R s t → Same R' (f (r, s)) (g (r, t))) : Same R' (x >>= f) (y >>= g) := by
  obtain ⟨e, rfl, rfl⟩ | ⟨r, s, t, rfl, rfl, hst⟩ := h
  · exact .inl ⟨e, rfl, rfl⟩
  · exact hcont r s t hst

theorem same_ok {ρ σ τ : Type} {R : σ → τ → Prop} {r : ρ} {s : σ} {t : τ} (h : R s t) :
    Same R (.ok (r, s)) (.ok (r, t)) :=
  .inr ⟨r, s, t, rfl, rfl, h⟩

/-- From here on the read method hands every read on to the child, with its
answer. -/
def HandsOn (method : κ → Nat → Method κ) (self : κ) : Prop :=
  ∃ P : κ → Prop, P self ∧ ∀ k, P k → ∀ count, ∃ next : ReadResult → κ,
    method k count = .readChild count (fun r => .answer r (next r)) ∧ ∀ r, P (next r)

theorem HandsOn.step {method : κ → Nat → Method κ} {self : κ} (h : HandsOn method self)
    (count : Nat) : ∃ next : ReadResult → κ,
      method self count = .readChild count (fun r => .answer r (next r)) ∧
        ∀ r, HandsOn method (next r) := by
  obtain ⟨P, hself, hP⟩ := h
  obtain ⟨next, hnext, hall⟩ := hP self hself count
  exact ⟨next, hnext, fun r => ⟨P, hall r, hP⟩⟩

def BodyWf (body : Body κ) : Prop := ∀ self, body = .line self → Wf self

/-- The read method of the stream has nothing of its own to answer. -/
inductive BodyHandsOn (method : κ → Nat → Method κ) : Body κ → Prop
  | buf : BodyHandsOn method .buf
  | line {self : ZStreamLine} (h : self.pos = self.endPos) : BodyHandsOn method (.line self)
  | own {self : κ} (h : HandsOn method self) : BodyHandsOn method (.own self)

/-- What is below a stream is what it is read for. -/
structure Transparent (method : κ → Nat → Method κ) (layer : Layer κ) : Prop where
  ungot : layer.ungotBufs = []
  body : BodyHandsOn method layer.body

theorem transparent_buf (method : κ → Nat → Method κ) (umbrellaIn : Bool) :
    Transparent method ⟨umbrellaIn, [], .buf⟩ := ⟨rfl, .buf⟩

/-- Streams that no read tells apart. -/
inductive Alike (method : κ → Nat → Method κ) : Body κ → Body κ → Prop
  | buf : Alike method .buf .buf
  | line {a b : ZStreamLine} (ha : Wf a) (hb : Wf b) (h : pending a = pending b) :
      Alike method (.line a) (.line b)
  | own (self : κ) : Alike method (.own self) (.own self)
  | handsOn {a b : κ} (ha : HandsOn method a) (hb : HandsOn method b) :
      Alike method (.own a) (.own b)

/-- Streams that no read tells apart, where the packet p is not among the
ungot ones. -/
structure LayerAlike (method : κ → Nat → Method κ) (p : Nat) (a b : Layer κ) : Prop where
  ungot : a.ungotBufs = b.ungotBufs
  fresh : p ∉ a.ungotBufs
  body : Alike method a.body b.body

structure StateAlike (method : κ → Nat → Method κ) (p : Nat) (s t : State κ) : Prop where
  layers : List.Forall₂ (LayerAlike method p) s.1 t.1
  heap : s.2 = t.2
  free : s.2 p = {}

/-- No stream holds p, and its place in memory is free. -/
structure Fresh (p : Nat) (s : State κ) : Prop where
  free : s.2 p = {}
  unlisted : ∀ layer ∈ s.1, p ∉ layer.ungotBufs

def LinesWf (layers : List (Layer κ)) : Prop := ∀ layer ∈ layers, BodyWf layer.body

variable {method : κ → Nat → Method κ}

theorem alike_refl {body : Body κ} (h : BodyWf body) : Alike method body body := by
  cases body with
  | buf => exact .buf
  | line self => exact .line (h self rfl) (h self rfl) rfl
  | own self => exact .own self

theorem Alike.trans {a b c : Body κ} (hab : Alike method a b) (hbc : Alike method b c) :
    Alike method a c := by
  cases hab with
  | buf | own => exact hbc
  | line ha hb h =>
      cases hbc with
      | line _ hc h' => exact .line ha hc (h.trans h')
  | handsOn ha hb =>
      cases hbc with
      | own => exact .handsOn ha hb
      | handsOn _ hc => exact .handsOn ha hc

theorem layersAlike_refl {p : Nat} {layers : List (Layer κ)}
    (hnone : ∀ layer ∈ layers, p ∉ layer.ungotBufs) (hwf : LinesWf layers) :
    List.Forall₂ (LayerAlike method p) layers layers :=
  List.forall₂_same.mpr (fun layer hl => ⟨rfl, hnone layer hl, alike_refl (hwf layer hl)⟩)

theorem readPacket_other {p q : Nat} {heap heap' : Heap} (hne : p ≠ q) {count : Nat}
    {r : List UInt8 × Bool} (h : readPacket count q heap = .ok (r.1, r.2, heap')) :
    heap' p = heap p := by
  have hunref {heap' : Heap} (hrun : pktbufUnref q heap = .ok heap') : heap' p = heap p := by
    rw [pktbufUnref] at hrun
    split at hrun
    · cases hrun
    · cases hrun
      exact Function.update_of_ne hne _ _
    · cases hrun
      exact Function.update_of_ne hne _ _
  simp only [readPacket] at h
  split at h
  · cases h
  · split at h
    · cases hu : pktbufUnref q heap with
      | error e => simp [hu, bind, Except.bind] at h
      | ok heap'' =>
          simp only [hu, bind, Except.bind, pure, Except.pure, Except.ok.injEq, Prod.mk.injEq] at h
          exact h.2.2 ▸ hunref hu
    · simp only [Except.ok.injEq, Prod.mk.injEq] at h
      rw [← h.2.2]
      exact Function.update_of_ne hne _ _

section Reads

variable {p : Nat} {readChild : Nat → State κ → Except Abort (ReadResult × State κ)}

theorem readWith_alike
    (hread : ∀ count s t, StateAlike method p s t →
      Same (StateAlike method p) (readChild count s) (readChild count t))
    (m : Method κ) {s t : State κ} (h : StateAlike method p s t) :
    Same (fun s t => s.1 = t.1 ∧ StateAlike method p s.2 t.2) (readWith readChild m s)
      (readWith readChild m t) := by
  induction m generalizing s t with
  | answer r next => exact same_ok ⟨rfl, h⟩
  | readChild count next ih =>
      obtain ⟨e, hs, ht⟩ | ⟨r, s', t', hs, ht, h'⟩ := hread count s t h
      · exact .inl ⟨e, by simp only [readWith, hs], by simp only [readWith, ht]⟩
      · simp only [readWith, hs, ht]
        exact ih r h'

theorem readBody_alike
    (hread : ∀ count s t, StateAlike method p s t →
      Same (StateAlike method p) (readChild count s) (readChild count t))
    (count : Nat) {s t : State κ} (h : StateAlike method p s t) {a b : Body κ}
    (hab : Alike method a b) :
    Same (fun s t => Alike method s.1 t.1 ∧ StateAlike method p s.2 t.2)
      (readBody method readChild count s a) (readBody method readChild count t b) := by
  cases hab with
  | buf => exact (hread count s t h).bind (fun r s t hst => same_ok ⟨.buf, hst⟩)
  | @line a b ha hb hpending =>
      have hlen : a.endPos - a.pos = b.endPos - b.pos := by
        rw [← pending_length ha, ← pending_length hb, hpending]
      simp only [readBody, gsizeSub_le ha.pos_le, gsizeSub_le hb.pos_le, hlen]
      by_cases havail : b.endPos - b.pos = 0
      · simp only [havail, ne_eq, not_true_eq_false, ↓reduceIte]
        refine (hread count s t h).bind (fun r s t hst => same_ok ⟨.line ?_ ?_ hpending, hst⟩)
        · exact ⟨ha.pos_le, ha.end_le, ha.length, ha.lt⟩
        · exact ⟨hb.pos_le, hb.end_le, hb.length, hb.lt⟩
      · simp only [havail, ne_eq, not_false_eq_true, ↓reduceIte]
        have hne : pending b ≠ [] := by
          intro h0
          rw [← pending_length hb, h0] at havail
          exact havail rfl
        obtain ⟨a', hruna, hwfa, -, -, -, hpa⟩ := readMethod_pending ha [] count (hpending ▸ hne)
        obtain ⟨b', hrunb, hwfb, -, -, -, hpb⟩ := readMethod_pending hb [] count hne
        rw [hruna, hrunb, hpending]
        exact same_ok ⟨.line hwfa hwfb (by rw [hpa, hpb, hpending]), h⟩
  | own self =>
      refine (readWith_alike hread (method self count) h).bind (fun r s t hst => same_ok ⟨?_, hst.2⟩)
      rw [hst.1]
      exact .own t.1
  | handsOn ha hb =>
      obtain ⟨next, hnext, hall⟩ := ha.step count
      obtain ⟨next', hnext', hall'⟩ := hb.step count
      obtain ⟨e, hs, ht⟩ | ⟨r, s', t', hs, ht, h'⟩ := hread count s t h
      · exact .inl ⟨e, by simp only [readBody, hnext, readWith, hs]; rfl,
          by simp only [readBody, hnext', readWith, ht]; rfl⟩
      · simp only [readBody, hnext, hnext', readWith, hs, ht]
        exact same_ok ⟨.handsOn (hall r) (hall' r), h'⟩

/-- A read of stacks that are alike answers the same, and does not come to
hold the packet. -/
theorem readLayers_alike (depth count : Nat) {s t : State κ} (h : StateAlike method p s t) :
    Same (StateAlike method p) (readLayers method depth count s)
      (readLayers method depth count t) := by
  induction depth generalizing count s t with
  | zero => exact .inl ⟨_, rfl, rfl⟩
  | succ depth ih =>
      obtain ⟨layers, heap⟩ := s
      obtain ⟨layers', heap'⟩ := t
      obtain ⟨hlayers, rfl, hfree⟩ := h
      cases hlayers with
      | nil => exact .inl ⟨_, rfl, rfl⟩
      | @cons a b rest rest' hab hrest =>
          cases hungot : b.ungotBufs with
          | nil =>
              simp only [readLayers, hab.ungot, hungot]
              have hbelow : StateAlike method p (rest, heap) (rest', heap) := ⟨hrest, rfl, hfree⟩
              exact (readBody_alike (fun count s t => ih count) count hbelow hab.body).bind
                (fun r s t hst => same_ok ⟨.cons ⟨rfl, List.not_mem_nil, hst.1⟩ hst.2.layers,
                  hst.2.heap, hst.2.free⟩)
          | cons q qs =>
              have hfresh := hab.fresh
              rw [hab.ungot, hungot] at hfresh
              obtain ⟨hne, hqs⟩ := not_or.mp (mt List.mem_cons.mpr hfresh)
              simp only [readLayers, hab.ungot, hungot]
              cases hpack : readPacket count q heap with
              | error e => exact .inl ⟨e, rfl, rfl⟩
              | ok r =>
                  obtain ⟨bytes, whole, heap'⟩ := r
                  have hkept := readPacket_other hne (r := (bytes, whole)) hpack
                  refine same_ok ⟨.cons ?_ hrest, rfl, hkept.trans hfree⟩
                  cases whole with
                  | false => exact hab
                  | true => exact ⟨rfl, hqs, hab.body⟩

theorem streamRead_alike (count : Nat) {s t : State κ} (h : StateAlike method p s t) :
    Same (StateAlike method p) (streamRead method count s) (streamRead method count t) := by
  rw [streamRead, streamRead, h.layers.length_eq]
  exact readLayers_alike t.1.length count h

theorem readBody_handsOn {count : Nat} {s t : State κ} {r : ReadResult}
    (hread : readChild count s = .ok (r, t)) {body : Body κ} (h : BodyHandsOn method body)
    (hwf : BodyWf body) :
    ∃ body', readBody method readChild count s body = .ok (r, body', t) ∧
      BodyHandsOn method body' ∧ BodyWf body' ∧ Alike method body' body := by
  cases h with
  | buf => exact ⟨.buf, by simp [readBody, hread, bind, Except.bind, pure, Except.pure], .buf, hwf, .buf⟩
  | @line self hempty =>
      have hself := hwf self rfl
      let self' : ZStreamLine := { self with childIn := false, childPri := false }
      have hself' : Wf self' := ⟨hself.pos_le, hself.end_le, hself.length, hself.lt⟩
      refine ⟨.line self', ?_, .line hempty, ?_, .line hself' hself rfl⟩
      · have havail : gsizeSub self.endPos self.pos = 0 := by
          rw [gsizeSub_le hself.pos_le, hempty, Nat.sub_self]
        simp [readBody, havail, hread, bind, Except.bind, pure, Except.pure, self']
      · intro t ht
        cases ht
        exact hself'
  | own h =>
      obtain ⟨next, hnext, hall⟩ := h.step count
      refine ⟨.own (next r), ?_, .own (hall r), fun self hs => (by cases hs), .handsOn (hall r) h⟩
      simp [readBody, hnext, readWith, hread, bind, Except.bind, pure, Except.pure]

/-- A read goes through the streams that hand it on. -/
theorem readLayers_above {count : Nat} {below below' : List (Layer κ)} {heap heap' : Heap}
    {r : ReadResult} {above before : List (Layer κ)}
    (halike : List.Forall₂ (LayerAlike method p) above before)
    (habove : ∀ layer ∈ above, Transparent method layer) (hwf : LinesWf above) (depth : Nat)
    (hread : readLayers method depth count (below, heap) = .ok (r, below', heap')) :
    ∃ above', readLayers method (above.length + depth) count (above ++ below, heap) =
        .ok (r, above' ++ below', heap') ∧
      List.Forall₂ (LayerAlike method p) above' before ∧
      (∀ layer ∈ above', Transparent method layer) ∧ LinesWf above' := by
  induction halike with
  | nil =>
      refine ⟨[], ?_, .nil, by simp, by simp [LinesWf]⟩
      rw [List.length_nil, Nat.zero_add]
      exact hread
  | @cons layer layer₀ above before hlayer _ ih =>
      rw [List.forall_mem_cons] at habove
      rw [LinesWf, List.forall_mem_cons] at hwf
      obtain ⟨above', hrun, halike', htrans', hwf'⟩ := ih habove.2 hwf.2
      obtain ⟨htop, -⟩ := habove
      obtain ⟨body, hbody, hhands, hbwf, hbalike⟩ := readBody_handsOn hrun htop.body hwf.1
      refine ⟨{ layer with body := body } :: above', ?_, .cons ⟨hlayer.ungot, hlayer.fresh, ?_⟩ halike',
        ?_, ?_⟩
      · rw [List.length_cons, Nat.add_right_comm]
        simp only [List.cons_append, readLayers, htop.ungot, hbody]
        rfl
      · exact hbalike.trans hlayer.body
      · rw [List.forall_mem_cons]
        exact ⟨⟨htop.ungot, hhands⟩, htrans'⟩
      · rw [LinesWf, List.forall_mem_cons]
        exact ⟨hbwf, hwf'⟩

end Reads

/-- How many streams hold the packet. -/
def holders (p : Nat) (layers : List (Layer κ)) : Nat :=
  layers.countP (fun layer => decide (p ∈ layer.ungotBufs))

/-- One stream holds what is left of the packet, with its one reference, or
none does and the packet is freed. -/
def Kept (p : Nat) : Option (List UInt8) → State κ → Prop
  | some bytes, s => s.2 p = ⟨bytes, 1⟩ ∧ holders p s.1 = 1
  | none, s => s.2 p = {} ∧ holders p s.1 = 0

/-- The reads of u answer like those of s, after the bytes that are given.
The read that takes the last of these bytes can go on into what s had. -/
inductive Replays (method : κ → Nat → Method κ) (Kept : Option (List UInt8) → State κ → Prop) :
    Option (List UInt8) → List Nat → State κ → State κ → Prop
  | stop {rest : Option (List UInt8)} {u s : State κ} (h : Kept rest u) :
      Replays method Kept rest [] u s
  | piece {bytes : List UInt8} {count : Nat} {counts : List Nat} {u u' s : State κ}
      (hlt : count < bytes.length)
      (hread : streamRead method count u = .ok (.normal (bytes.take count), u'))
      (h : Replays method Kept (some (bytes.drop count)) counts u' s) :
      Replays method Kept (some bytes) (count :: counts) u s
  | last {bytes : List UInt8} {count : Nat} {counts : List Nat} {u u' s : State κ}
      (hle : bytes.length ≤ count)
      (hread : streamRead method count u = .ok (.normal bytes, u'))
      (h : Replays method Kept none counts u' s) :
      Replays method Kept (some bytes) (count :: counts) u s
  | joined {bytes more : List UInt8} {count : Nat} {counts : List Nat} {u u' s s' : State κ}
      (hle : bytes.length ≤ count)
      (hread : streamRead method count u = .ok (.normal (bytes ++ more), u'))
      (hbefore : streamRead method (count - bytes.length) s = .ok (.normal more, s'))
      (h : Replays method Kept none counts u' s') :
      Replays method Kept (some bytes) (count :: counts) u s
  | empty {counts : List Nat} {u s : State κ} (h : Replays method Kept none counts u s) :
      Replays method Kept (some []) counts u s
  | same {r : ReadResult} {count : Nat} {counts : List Nat} {u u' s s' : State κ}
      (hread : streamRead method count u = .ok (r, u'))
      (hbefore : streamRead method count s = .ok (r, s'))
      (h : Replays method Kept none counts u' s') :
      Replays method Kept none (count :: counts) u s
  | stopped {e : Abort} {count : Nat} {counts : List Nat} {u s : State κ}
      (hread : streamRead method count u = .error e)
      (hbefore : streamRead method count s = .error e) :
      Replays method Kept none (count :: counts) u s

/-- The packet is the first thing that a read of the stack comes to. -/
def Fronts (method : κ → Nat → Method κ) (p : Nat) : List (Layer κ) → Prop
  | [] => False
  | layer :: rest =>
      layer.ungotBufs.head? = some p ∨ Transparent method layer ∧ Fronts method p rest

/-- The bytes stand before the others in the buffer of the line stream on top,
which a read of the stack comes to first. -/
def InBuffer (bytes : List UInt8) (before after : List (Layer κ)) : Prop :=
  ∃ layer rest self self', before = layer :: rest ∧ layer.ungotBufs = [] ∧
    layer.body = .line self ∧ after = { layer with body := .line self' } :: rest ∧
    pending self' = bytes ++ pending self

/-- The bytes are pushed back into one stream, and read once before all else;
then the packet is freed. -/
def PushedBack (method : κ → Nat → Method κ) (bytes : List UInt8) (p : Nat) (s : State κ) : Prop :=
  ∃ u, unget bytes p s = .ok (true, u) ∧
    ((holders p u.1 = 1 ∧ Fronts method p u.1 ∧
        ∀ counts, Replays method (Kept p) (some bytes) counts u s) ∨
      (InBuffer bytes s.1 u.1 ∧
        ∀ counts, Replays method (fun _ => Kept p none) (some bytes) counts u s))

/-- One stream is an umbrella for reads, and the streams above it hand reads
on. -/
def SoleUmbrella (method : κ → Nat → Method κ) : List (Layer κ) → Prop
  | [] => False
  | layer :: rest =>
      if layer.umbrellaIn then ∀ below ∈ rest, below.umbrellaIn = false
      else Transparent method layer ∧ SoleUmbrella method rest

/-- A line stream on top has room for the bytes and nothing in its list of
ungot packets; without one, one stream is the umbrella. -/
def UngetOk (method : κ → Nat → Method κ) (bytes : List UInt8) : List (Layer κ) → Prop
  | [] => False
  | layer :: rest =>
      match layer.body with
      | .line self =>
          layer.ungotBufs = [] ∧ bytes.length < self.pos + (self.bufsize - self.endPos)
      | _ => SoleUmbrella method (layer :: rest)

theorem holders_zero {p : Nat} {layers : List (Layer κ)} :
    holders p layers = 0 ↔ ∀ layer ∈ layers, p ∉ layer.ungotBufs := by
  simp [holders, List.countP_eq_zero]

theorem Fresh.kept {p : Nat} {s : State κ} (h : Fresh p s) : Kept p none s :=
  ⟨h.free, holders_zero.mpr h.unlisted⟩

theorem StateAlike.kept {p : Nat} {s t : State κ} (h : StateAlike method p s t) : Kept p none s := by
  refine ⟨h.free, holders_zero.mpr ?_⟩
  have hboth := h.layers.imp (fun _ _ hab => And.intro hab.fresh hab)
  exact ((List.forall₂_and_left s.1 t.1).mp hboth).1

theorem replays_alike {p : Nat} {K : Option (List UInt8) → State κ → Prop}
    (hK : ∀ s, Kept p none s → K none s) (counts : List Nat) {u s : State κ}
    (h : StateAlike method p u s) : Replays method K none counts u s := by
  induction counts generalizing u s with
  | nil => exact .stop (hK u h.kept)
  | cons count counts ih =>
      obtain ⟨e, hu, hs⟩ | ⟨r, u', s', hu, hs, h'⟩ := streamRead_alike count h
      · exact .stopped hu hs
      · exact .same hu hs (ih h')

section Listed

variable {p : Nat} {ps : List Nat} {layer : Layer κ} {above before below : List (Layer κ)}
  {heap : Heap}

theorem readPacket_last {count : Nat} {bytes : List UInt8} (hfree : heap p = {})
    (h : bytes.length ≤ count) :
    readPacket count p (Function.update heap p ⟨bytes, 1⟩) = .ok (bytes, true, heap) := by
  have hback : Function.update heap p {} = heap := by rw [← hfree, Function.update_eq_self]
  simp [readPacket, pktbufUnref, h, hback, bind, Except.bind, pure, Except.pure]

theorem readPacket_piece {count : Nat} {bytes : List UInt8} (h : count < bytes.length) :
    readPacket count p (Function.update heap p ⟨bytes, 1⟩) =
      .ok (bytes.take count, false, Function.update heap p ⟨bytes.drop count, 1⟩) := by
  simp [readPacket, Nat.not_le.mpr h]

theorem holders_listed (hbelow : ∀ layer ∈ below, p ∉ layer.ungotBufs)
    (halike : List.Forall₂ (LayerAlike method p) above before) :
    holders p (above ++ { layer with ungotBufs := p :: ps } :: below) = 1 := by
  have hboth := halike.imp (fun _ _ hab => And.intro hab.fresh hab)
  have habove := holders_zero.mpr ((List.forall₂_and_left above before).mp hboth).1
  have hrest := holders_zero.mpr hbelow
  rw [holders] at habove hrest ⊢
  rw [List.countP_append, List.countP_cons, habove, hrest]
  simp

/-- The reads of a stack that holds the packet behind streams which hand reads
on. -/
theorem replays_listed (hfree : heap p = {}) (hps : p ∉ ps)
    (hbelow : ∀ layer ∈ below, p ∉ layer.ungotBufs) (hwf : LinesWf (layer :: below))
    (counts : List Nat) {bytes : List UInt8}
    (halike : List.Forall₂ (LayerAlike method p) above before)
    (habove : ∀ layer ∈ above, Transparent method layer) (habovewf : LinesWf above) :
    Replays method (Kept p) (some bytes) counts
      (above ++ { layer with ungotBufs := p :: ps } :: below, Function.update heap p ⟨bytes, 1⟩)
      (before ++ { layer with ungotBufs := ps } :: below, heap) := by
  induction counts generalizing bytes above with
  | nil => exact .stop ⟨Function.update_self p _ heap, holders_listed hbelow halike⟩
  | cons count counts ih =>
      have hdepth : (above ++ { layer with ungotBufs := p :: ps } :: below).length =
          above.length + (below.length + 1) := by simp
      by_cases hle : bytes.length ≤ count
      · have hread : readLayers method (below.length + 1) count
            ({ layer with ungotBufs := p :: ps } :: below, Function.update heap p ⟨bytes, 1⟩) =
              .ok (.normal bytes, { layer with ungotBufs := ps } :: below, heap) := by
          simp only [readLayers, readPacket_last hfree hle]
          rfl
        obtain ⟨above', hrun, halike', -⟩ := readLayers_above halike habove habovewf _ hread
        have hholder : List.Forall₂ (LayerAlike method p) ({ layer with ungotBufs := ps } :: below)
            ({ layer with ungotBufs := ps } :: below) :=
          layersAlike_refl (List.forall_mem_cons.mpr ⟨hps, hbelow⟩)
            (List.forall_mem_cons.mpr (List.forall_mem_cons.mp hwf))
        have hafter : StateAlike method p (above' ++ { layer with ungotBufs := ps } :: below, heap)
            (before ++ { layer with ungotBufs := ps } :: below, heap) :=
          ⟨List.rel_append halike' hholder, rfl, hfree⟩
        exact .last hle (by rw [streamRead, hdepth]; exact hrun)
          (replays_alike (fun _ h => h) counts hafter)
      · have hlt := Nat.lt_of_not_le hle
        have hread : readLayers method (below.length + 1) count
            ({ layer with ungotBufs := p :: ps } :: below, Function.update heap p ⟨bytes, 1⟩) =
              .ok (.normal (bytes.take count), { layer with ungotBufs := p :: ps } :: below,
                Function.update heap p ⟨bytes.drop count, 1⟩) := by
          simp only [readLayers, readPacket_piece hlt]
          rfl
        obtain ⟨above', hrun, halike', habove', habovewf'⟩ :=
          readLayers_above halike habove habovewf _ hread
        exact .piece hlt (by rw [streamRead, hdepth]; exact hrun) (ih halike' habove' habovewf')

end Listed

section Buffered

variable {p : Nat} {layer : Layer κ} {rest : List (Layer κ)} {heap : Heap}

theorem streamRead_buffered (hungot : layer.ungotBufs = []) {self : ZStreamLine} (hself : Wf self)
    (hne : pending self ≠ []) (count : Nat) :
    ∃ self', streamRead method count ({ layer with body := .line self } :: rest, heap) =
        .ok (.normal ((pending self).take count), { layer with body := .line self' } :: rest, heap) ∧
      Wf self' ∧ pending self' = (pending self).drop count := by
  obtain ⟨self', hrun, hwf, -, -, -, hpending⟩ := readMethod_pending hself [] count hne
  refine ⟨self', ?_, hwf, hpending⟩
  have havail : gsizeSub self.endPos self.pos ≠ 0 := by
    rw [gsizeSub_le hself.pos_le, ← pending_length hself]
    exact fun h => hne (List.length_eq_zero_iff.mp h)
  simp only [streamRead, List.length_cons, readLayers, hungot, readBody, ne_eq, havail,
    not_false_eq_true, ↓reduceIte, hrun]
  rfl

/-- The reads of a line stream that has the bytes in its buffer. -/
theorem replays_buffered (hfree : heap p = {}) (hungot : layer.ungotBufs = [])
    (hrest : ∀ layer ∈ rest, p ∉ layer.ungotBufs) (hrestwf : LinesWf rest) {self self' : ZStreamLine}
    (hself : Wf self) (hself' : Wf self') (counts : List Nat) {bytes : List UInt8}
    (hpending : pending self' = bytes ++ pending self) :
    Replays method (fun _ => Kept p none) (some bytes) counts
      ({ layer with body := .line self' } :: rest, heap)
      ({ layer with body := .line self } :: rest, heap) := by
  have halike {a b : ZStreamLine} (ha : Wf a) (hb : Wf b) (h : pending a = pending b) :
      StateAlike method p ({ layer with body := .line a } :: rest, heap)
        ({ layer with body := .line b } :: rest, heap) :=
    ⟨.cons ⟨rfl, by simp [hungot], .line ha hb h⟩ (layersAlike_refl hrest hrestwf), rfl, hfree⟩
  have hread {a : ZStreamLine} (ha : Wf a) (hne : pending a ≠ []) (count : Nat) :
      ∃ b, streamRead method count ({ layer with body := .line a } :: rest, heap) =
          .ok (.normal ((pending a).take count), { layer with body := .line b } :: rest, heap) ∧
        Wf b ∧ pending b = (pending a).drop count :=
    streamRead_buffered hungot ha hne count
  have hdone (counts : List Nat) {u s : State κ} (h : StateAlike method p u s) :
      Replays method (fun _ => Kept p none) none counts u s :=
    replays_alike (K := fun _ => Kept p none) (fun _ h => h) counts h
  induction counts generalizing bytes self' with
  | nil => exact .stop (halike hself' hself' rfl).kept
  | cons count counts ih =>
      by_cases hbytes : bytes = []
      · subst hbytes
        exact .empty (hdone _ (halike hself' hself hpending))
      · have hne : pending self' ≠ [] := by
          rw [hpending]
          exact List.append_ne_nil_of_left_ne_nil hbytes _
        obtain ⟨t, hrun, ht, hrest'⟩ := hread hself' hne count
        rw [hpending] at hrun hrest'
        by_cases hle : bytes.length ≤ count
        · rw [List.take_append, List.take_of_length_le hle] at hrun
          rw [List.drop_append, List.drop_of_length_le hle, List.nil_append] at hrest'
          by_cases hmore : (pending self).take (count - bytes.length) = []
          · have hall : pending t = pending self := by
              rw [hrest']
              obtain hzero | hnil := List.take_eq_nil_iff.mp hmore
              · rw [hzero, List.drop_zero]
              · rw [hnil, List.drop_nil]
            rw [hmore, List.append_nil] at hrun
            exact .last hle hrun (hdone counts (halike ht hself hall))
          · have hsome : pending self ≠ [] := fun hnil => hmore (by rw [hnil, List.take_nil])
            obtain ⟨t₀, hrun₀, ht₀, hrest₀⟩ := hread hself hsome (count - bytes.length)
            have hall := hrest'.trans hrest₀.symm
            exact .joined hle hrun hrun₀ (hdone counts (halike ht ht₀ hall))
        · have hlt := Nat.lt_of_not_le hle
          rw [List.take_append_of_le_length (Nat.le_of_lt hlt)] at hrun
          rw [List.drop_append_of_le_length (Nat.le_of_lt hlt)] at hrest'
          exact .piece hlt hrun (ih ht hrest')

end Buffered

section Unget

variable {p : Nat} {bytes : List UInt8} {layer : Layer κ} {rest : List (Layer κ)} {heap : Heap}

theorem unget_default (hbody : ∀ self, layer.body ≠ .line self) :
    unget bytes p (layer :: rest, heap) =
      .ok (true, ungetPacketDefault p (layer :: rest), Function.update heap p ⟨bytes, 1⟩) := by
  cases hb : layer.body with
  | line self => exact absurd hb (hbody self)
  | buf | own =>
      simp only [unget, ungetPacket, hb]
      rfl

theorem unget_line {self : ZStreamLine} (hfree : heap p = {}) (hself : Wf self)
    (hbody : layer.body = .line self) :
    ∃ res self', unget bytes p (layer :: rest, heap) =
        .ok (res, (if res then { layer with body := .line self' } else layer) :: rest, heap) ∧
      Wf self' ∧ (res = true ↔ bytes.length < self.pos + (self.bufsize - self.endPos)) ∧
      (res = true → pending self' = bytes ++ pending self) := by
  obtain ⟨res, self', hrun, hwf, -, -, -, -, hfit, hpending⟩ :=
    ungetPacketMethod_refines hself bytes
  have hback : Function.update heap p {} = heap := by rw [← hfree, Function.update_eq_self]
  refine ⟨res, self', ?_, hwf, hfit, fun hres => by rw [hpending, if_pos hres]⟩
  cases res <;>
    simp [unget, ungetPacket, hbody, hrun, Except.mapError, pktbufUnref, hback, bind, Except.bind,
      pure, Except.pure]

theorem soleUmbrella_split {layers : List (Layer κ)} (h : SoleUmbrella method layers) :
    ∃ above layer below, layers = above ++ layer :: below ∧
      (∀ layer ∈ above, Transparent method layer) ∧
      ungetPacketDefault p layers =
        above ++ { layer with ungotBufs := p :: layer.ungotBufs } :: below := by
  have hnone {rest : List (Layer κ)} (hrest : ∀ below ∈ rest, below.umbrellaIn = false) :
      ungetPacketDefault p rest = rest :=
    (List.map_congr_left (fun layer hl => if_neg (by simp [hrest layer hl]))).trans (List.map_id rest)
  induction layers with
  | nil => cases h
  | cons layer rest ih =>
      rw [SoleUmbrella] at h
      split at h
      · rename_i hin
        refine ⟨[], layer, rest, rfl, by simp, ?_⟩
        rw [ungetPacketDefault, List.map_cons, if_pos hin]
        exact congrArg _ (hnone h)
      · rename_i hin
        obtain ⟨above, holder, below, rfl, habove, hplaced⟩ := ih h.2
        refine ⟨layer :: above, holder, below, rfl, List.forall_mem_cons.mpr ⟨h.1, habove⟩, ?_⟩
        rw [ungetPacketDefault, List.map_cons, if_neg hin]
        exact congrArg _ hplaced

theorem soleUmbrella_of_fronts {layers : List (Layer κ)}
    (hfresh : ∀ layer ∈ layers, p ∉ layer.ungotBufs)
    (hone : holders p (ungetPacketDefault p layers) = 1)
    (hfronts : Fronts method p (ungetPacketDefault p layers)) : SoleUmbrella method layers := by
  induction layers with
  | nil => cases hfronts
  | cons layer rest ih =>
      rw [List.forall_mem_cons] at hfresh
      rw [SoleUmbrella]
      split
      · rename_i hin
        intro below hbelow
        rw [ungetPacketDefault, List.map_cons, if_pos hin, holders, List.countP_cons] at hone
        have hzero : holders p (ungetPacketDefault p rest) = 0 := by
          simpa [holders, ungetPacketDefault] using hone
        have hnot := holders_zero.mp hzero _ (List.mem_map_of_mem hbelow)
        by_contra hother
        rw [if_pos (by simpa using hother)] at hnot
        exact hnot (by simp)
      · rename_i hin
        rw [ungetPacketDefault, List.map_cons, if_neg hin] at hone hfronts
        have hlayer := hfresh.1
        rw [holders, List.countP_cons, if_neg (by simpa using hlayer)] at hone
        obtain hhead | ⟨htrans, hrest⟩ := hfronts
        · exact absurd (List.mem_of_head? hhead) hlayer
        · exact ⟨htrans, ih hfresh.2 hone hrest⟩

/-- Into the buffer of the line stream on top. -/
theorem pushedBack_line (hfree : heap p = {}) (hunlisted : ∀ other ∈ layer :: rest, p ∉ other.ungotBufs)
    (hwf : LinesWf (layer :: rest)) {self : ZStreamLine} (hbody : layer.body = .line self) :
    PushedBack method bytes p (layer :: rest, heap) ↔
      layer.ungotBufs = [] ∧ bytes.length < self.pos + (self.bufsize - self.endPos) := by
  rw [List.forall_mem_cons] at hunlisted
  rw [LinesWf, List.forall_mem_cons] at hwf
  have hself := hwf.1 self hbody
  obtain ⟨res, self', hrun, hself', hfit, hpending⟩ :=
    @unget_line κ p bytes layer rest heap self hfree hself hbody
  rw [← hfit]
  constructor
  · rintro ⟨u, hu, h⟩
    rw [hrun, Except.ok.injEq, Prod.mk.injEq] at hu
    obtain ⟨rfl, rfl⟩ := hu
    obtain ⟨hone, -⟩ | ⟨⟨_, _, _, _, hsplit, hungot, -⟩, -⟩ := h
    · have hzero : holders p ({ layer with body := .line self' } :: rest) = 0 :=
        holders_zero.mpr (List.forall_mem_cons.mpr hunlisted)
      exact absurd (hzero.symm.trans hone) (by decide)
    · obtain ⟨rfl, rfl⟩ := List.cons.inj hsplit
      exact ⟨hungot, rfl⟩
  · rintro ⟨hungot, rfl⟩
    refine ⟨_, hrun, .inr ⟨⟨layer, rest, self, self', rfl, hungot, hbody, rfl, hpending rfl⟩,
      fun counts => ?_⟩⟩
    have h : Replays method _ _ counts ({ layer with body := .line self' } :: rest, heap)
        ({ layer with body := .line self } :: rest, heap) :=
      replays_buffered hfree hungot hunlisted.2 hwf.2 hself hself' counts (hpending rfl)
    rwa [← hbody] at h

theorem fronts_above {above : List (Layer κ)} (habove : ∀ layer ∈ above, Transparent method layer)
    {layers : List (Layer κ)} (h : Fronts method p layers) : Fronts method p (above ++ layers) := by
  induction above with
  | nil => exact h
  | cons layer above ih =>
      rw [List.forall_mem_cons] at habove
      exact .inr ⟨habove.1, ih habove.2⟩

/-- Into the lists of the umbrellas. -/
theorem pushedBack_default (hfree : heap p = {})
    (hunlisted : ∀ other ∈ layer :: rest, p ∉ other.ungotBufs) (hwf : LinesWf (layer :: rest))
    (hbody : ∀ self, layer.body ≠ .line self) :
    PushedBack method bytes p (layer :: rest, heap) ↔ SoleUmbrella method (layer :: rest) := by
  have hrun := @unget_default κ p bytes layer rest heap hbody
  constructor
  · rintro ⟨u, hu, h⟩
    rw [hrun, Except.ok.injEq, Prod.mk.injEq] at hu
    obtain ⟨-, rfl⟩ := hu
    obtain ⟨hone, hfronts, -⟩ | ⟨⟨_, _, self, _, hsplit, -, hself, -⟩, -⟩ := h
    · exact soleUmbrella_of_fronts hunlisted hone hfronts
    · obtain ⟨rfl, rfl⟩ := List.cons.inj hsplit
      exact absurd hself (hbody self)
  · intro hsole
    obtain ⟨above, holder, below, hsplit, habove, hplaced⟩ := soleUmbrella_split (p := p) hsole
    rw [hplaced] at hrun
    rw [hsplit] at hunlisted hwf
    rw [LinesWf, List.forall_mem_append] at hwf
    rw [List.forall_mem_append, List.forall_mem_cons] at hunlisted
    have halike : List.Forall₂ (LayerAlike method p) above above :=
      layersAlike_refl hunlisted.1 hwf.1
    refine ⟨_, hrun, .inl ⟨holders_listed hunlisted.2.2 halike,
      fronts_above habove (.inl (by simp)), fun counts => ?_⟩⟩
    have h : Replays method (Kept p) (some bytes) counts _ (above ++ holder :: below, heap) :=
      replays_listed hfree hunlisted.2.1 hunlisted.2.2 hwf.2 counts halike habove hwf.1
    rwa [← hsplit] at h

end Unget

/-- The bytes are pushed back and read once, before all else, just when there
is one stream to take them and nothing stands before it. -/
theorem unget_pushed_back {s : State κ} {p : Nat} (bytes : List UInt8) (hfresh : Fresh p s)
    (hwf : LinesWf s.1) : PushedBack method bytes p s ↔ UngetOk method bytes s.1 := by
  obtain ⟨layers, heap⟩ := s
  obtain ⟨hfree, hunlisted⟩ := hfresh
  cases layers with
  | nil => exact ⟨fun ⟨_, hrun, _⟩ => (by cases hrun), False.elim⟩
  | cons layer rest =>
      cases hbody : layer.body with
      | line self =>
          simp only [UngetOk, hbody]
          exact pushedBack_line hfree hunlisted hwf hbody
      | buf | own =>
          simp only [UngetOk, hbody]
          exact pushedBack_default hfree hunlisted hwf (fun self h => by rw [hbody] at h; cases h)

/-- One reference to the packet is given up, and with the last one the packet
is freed. -/
def Released (p : Nat) (heap heap' : Heap) : Prop :=
  heap' p = (if (heap p).refs = 1 then {} else { heap p with refs := (heap p).refs - 1 }) ∧
    ∀ q, q ≠ p → heap' q = heap q

theorem pktbufUnref_released {p : Nat} {heap : Heap} (hheld : 0 < (heap p).refs) :
    ∃ heap', pktbufUnref p heap = .ok heap' ∧ Released p heap heap' := by
  rw [pktbufUnref]
  split
  · omega
  · rename_i hone
    refine ⟨_, rfl, ?_, fun q hq => Function.update_of_ne hq _ _⟩
    rw [if_pos hone, Function.update_self]
  · rename_i refs hmore
    refine ⟨_, rfl, ?_, fun q hq => Function.update_of_ne hq _ _⟩
    have hne : ¬(heap p).refs = 1 := by omega
    have hpred : refs + 1 = (heap p).refs - 1 := by omega
    rw [if_neg hne, Function.update_self, hpred]

/-- A packet that a line stream takes stands before its pending bytes and is
released once. One that it refuses changes nothing, and it takes each that
leaves a byte of the buffer free. -/
theorem line_unget_exact {self : ZStreamLine} (h : Wf self) (layer : Layer κ) (hbody : layer.body = .line self)
    (rest : List (Layer κ)) (heap : Heap) (p : Nat) (hheld : 0 < (heap p).refs) :
    ∃ res self' heap',
      ungetPacket p (layer :: rest, heap) = .ok (res, { layer with body := .line self' } :: rest, heap') ∧
      (res = true → pending self' = (heap p).data ++ pending self ∧ self'.pos ≤ self'.endPos ∧
        self'.endPos ≤ self'.bufsize ∧ self'.bufsize = self.bufsize ∧ Released p heap heap') ∧
      (res = false → self' = self ∧ heap' = heap) ∧
      ((heap p).data.length + (pending self).length < self.bufsize → res = true) := by
  obtain ⟨res, t, hrun, hwf, -, hsize, -, -, hfit, hpending⟩ := ungetPacketMethod_refines h (heap p).data
  have hroom : (heap p).data.length + (pending self).length < self.bufsize → res = true := by
    intro hless
    have hpos := h.pos_le
    have hend := h.end_le
    rw [pending_length h] at hless
    exact hfit.mpr (by omega)
  cases res with
  | true =>
      obtain ⟨heap', hunref, hreleased⟩ := pktbufUnref_released hheld
      refine ⟨true, t, heap', ?_, fun _ => ⟨hpending, hwf.pos_le, hwf.end_le, hsize, hreleased⟩,
        (fun hres => nomatch hres), hroom⟩
      simp only [ungetPacket, hbody, hrun, Except.mapError, bind, Except.bind, ↓reduceIte, hunref, pure,
        Except.pure]
  | false =>
      have hsame : ungetPacket p (layer :: rest, heap) = .ok (false, layer :: rest, heap) := by
        simp only [ungetPacket, hbody, hrun, Except.mapError, bind, Except.bind, pure, Except.pure,
          Bool.false_eq_true, ↓reduceIte]
      refine ⟨false, self, heap, ?_, (fun hres => nomatch hres), fun _ => ⟨rfl, rfl⟩, hroom⟩
      rw [hsame, ← hbody]

/-- An empty buffer takes a packet that is one byte shorter. -/
theorem line_unget_exact_empty :
    (ungetPacket 0 ([(⟨true, [], .line (lineNew 4 {} (fun _ => 0))⟩ : Layer Unit)],
      fun _ => ⟨[97, 98, 99], 1⟩)).map Prod.fst = .ok true := by
  obtain ⟨res, self', heap', hrun, -, -, hfit⟩ := line_unget_exact (lineNew_wf 4 {} (fun _ => 0))
    (⟨true, [], .line (lineNew 4 {} (fun _ => 0))⟩ : Layer Unit) rfl [] (fun _ => ⟨[97, 98, 99], 1⟩) 0
    Nat.one_pos
  rw [hrun, hfit (by decide)]
  rfl

/-- A stream at the bottom of a stack that reads what a child answers. -/
def source (self : Child) (count : Nat) : Method Child :=
  .answer (childRead count self).1 (childRead count self).2

theorem unget_pushed_back_bottom :
    PushedBack source [97, 98] 0
      ([⟨false, [], .buf⟩, ⟨true, [], .own [.normal [99]]⟩], fun _ => {}) :=
  (unget_pushed_back [97, 98] ⟨rfl, by simp⟩
    (by simp [LinesWf, BodyWf])).mpr (by simp [UngetOk, SoleUmbrella, transparent_buf])

/-- A buffering stream over a line stream over a descriptor. -/
def stacked : State Child :=
  ([⟨false, [], .buf⟩, ⟨true, [], .line (lineNew 16 {} (fun _ => 0))⟩, ⟨true, [], .own []⟩],
    fun _ => {})

/-- The line stream and the descriptor both take the packet. It is freed when
it is read from the first, and read again from the second. -/
theorem unget_not_pushed_back :
    Fresh 0 stacked ∧ LinesWf stacked.1 ∧ ¬PushedBack source [97, 98] 0 stacked ∧
      (unget [97, 98] 0 stacked).bind
        (fun u => (streamRead source 2 u.2).map Prod.fst) = .ok (.normal [97, 98]) ∧
      (unget [97, 98] 0 stacked).bind
        (fun u => (Run.run (streamRead source) [2, 2] u.2).map Prod.fst) = .error .freed := by
  have hfresh : Fresh 0 stacked := ⟨rfl, by simp [stacked]⟩
  have hwf : LinesWf stacked.1 := by
    have hline : BodyWf (.line (lineNew 16 {} (fun _ => 0)) : Body Child) := by
      intro self h
      cases h
      exact lineNew_wf 16 {} (fun _ => 0)
    simpa [stacked, LinesWf, BodyWf] using hline
  refine ⟨hfresh, hwf, ?_, rfl, rfl⟩
  intro h
  have hsole := (pushedBack_default hfresh.free hfresh.unlisted hwf (fun self h => by cases h)).mp h
  simp [SoleUmbrella] at hsole

end Libzorpll.Pushback
