import Libzorpll.UserData

/-! How often a destroy notify is called. -/

namespace Libzorpll.NotifiedOnce

open Word StreamContext StreamStack Custody UserData ContextIdentity

variable {ι κ P D : Type}

/-- The places where user data can be: a direction of a stream or of a
context. -/
abbrev Place (ι κ : Type) := (ι ⊕ κ) × Direction

def holds (s : State ι κ P D) : Place ι κ → Option (Registration P D)
  | (.inl i, d) => registration ((s.watches i).callback d)
  | (.inr k, d) => pending (s.contexts k) d

def toCustody : UserData.Event P D → Option (Custody.Event (Registration P D))
  | .registered r => some (.acquired r)
  | .notified ⟨notify, some (data, serial)⟩ => some (.released ⟨notify, data, serial⟩)
  | .notified ⟨_, none⟩ => none
  | .overwritten r => some (.lost r)

abbrev custody (es : List (UserData.Event P D)) : List (Custody.Event (Registration P D)) :=
  es.filterMap toCustody

def row (o : ι ⊕ κ) : List (Place ι κ) := [(o, .read), (o, .write), (o, .pri)]

theorem row_nodup (o : ι ⊕ κ) : (row o).Nodup := by
  simp [row]

theorem mem_row {o : ι ⊕ κ} {x : Place ι κ} : x ∈ row o ↔ x.1 = o := by
  rcases x with ⟨o', d⟩
  constructor
  · intro h
    simp only [row, List.mem_cons, Prod.mk.injEq, List.not_mem_nil, or_false] at h
    tauto
  · rintro rfl
    cases d <;> simp [row]

theorem custody_notifySet (cb : SetCb P (D × Nat)) :
    custody ((notifySet cb).map .notified) = (registration cb).toList.map .released := by
  rcases cb with ⟨cb, _ | ⟨data, serial⟩, _ | notify⟩ <;> rfl

theorem custody_notifyOld (cb : SetCb P (D × Nat)) :
    custody ((notifyOld cb).map .notified) = (registration cb).toList.map .released := by
  rcases cb with ⟨cb, _ | ⟨data, serial⟩, _ | notify⟩ <;> rfl

theorem custody_registeredAs (cb : SetCb P (D × Nat)) :
    custody (registeredAs cb) = (registration cb).toList.map .acquired := by
  rcases cb with ⟨cb, _ | ⟨data, serial⟩, _ | notify⟩ <;> rfl

theorem custody_notifyAll (callback : Direction → SetCb P (D × Nat)) :
    custody ((notifyAll callback).map .notified) =
      [Direction.read, .write, .pri].flatMap
        (fun d => (registration (callback d)).toList.map .released) := by
  rw [notifyAll, List.map_append, List.map_append, custody, List.filterMap_append,
    List.filterMap_append]
  simp only [List.flatMap_cons, List.flatMap_nil, List.append_nil, ← custody_notifySet, custody,
    List.append_assoc]

theorem custody_overwritten (context : Option (Context P (D × Nat))) :
    custody (overwritten context) =
      [Direction.read, .write, .pri].flatMap (fun d => (pending context d).toList.map .lost) := by
  have hone (o : Option (Registration P D)) :
      custody (o.toList.map .overwritten) = o.toList.map .lost := by
    cases o <;> rfl
  simp only [overwritten, List.flatMap_cons, List.flatMap_nil, List.append_nil]
  rw [custody, List.filterMap_append, List.filterMap_append]
  exact congrArg₂ _ (hone _) (congrArg₂ _ (hone _) (hone _))

theorem ctrl_setCallback (top : ZStream P D) (below : Stack P D) (d : Direction) (cb : SetCb P D) :
    ctrl (top :: below) false (.setCallback d) (.setCb cb) =
      { res := true
        value := .setCb cb
        notified := notifyOld (top.watch.callback d)
        stack := { top with watch.callback := Function.update top.watch.callback d cb } :: below } := by
  rcases top with ⟨own, timeout, watch⟩
  cases own with
  | fd | line | buf | tee | gzip | ssl | blob => rfl

theorem watch_setMode (v : BitVec 32) (s : Stack P D) :
    (setMode v s).map ZStream.watch = s.map ZStream.watch := by
  induction s with
  | nil => rfl
  | cons s below ih =>
      rcases s with ⟨own, timeout, watch⟩
      cases own with
      | fd | blob => rfl
      | line | buf | tee | gzip | ssl => exact congrArg (watch :: ·) ih

theorem watch_extraRestore (host : ByteOrder) (extra : List UInt8) {s t : Stack P D} {ofs : Nat}
    (h : extraRestore host extra s = .ok (ofs, t)) : t.map ZStream.watch = s.map ZStream.watch := by
  induction s generalizing ofs t with
  | nil =>
      cases h
      rfl
  | cons s below ih =>
      rcases s with ⟨own, timeout, watch⟩
      rw [extraRestore] at h
      cases hbelow : extraRestore host extra below with
      | error e =>
          rw [hbelow] at h
          cases h
      | ok p =>
          rcases p with ⟨ofs', t'⟩
          have hrest := ih hbelow
          rw [hbelow] at h
          simp only [bind, Except.bind] at h
          cases own with
          | fd flags =>
              cases hread : Region.read extra ofs' 4 with
              | error e =>
                  simp only [hread] at h
                  cases h
              | ok bytes =>
                  simp only [hread] at h
                  obtain ⟨-, rfl⟩ := Prod.mk.inj (Except.ok.inj h)
                  exact congrArg (watch :: ·) hrest
          | line flags =>
              cases hread : Region.read extra ofs' 4 with
              | error e =>
                  simp only [hread] at h
                  cases h
              | ok bytes =>
                  simp only [hread] at h
                  obtain ⟨-, rfl⟩ := Prod.mk.inj (Except.ok.inj h)
                  exact congrArg (watch :: ·) hrest
          | buf | tee | gzip | ssl | blob =>
              obtain ⟨-, rfl⟩ := Prod.mk.inj (Except.ok.inj h)
              exact congrArg (watch :: ·) hrest

theorem watch_saveContext {host : ByteOrder} {uninit : BitVec 32} {top saved : ZStream P D}
    {below : Stack P D} {context : Context P D}
    (h : saveContext host uninit top below = .ok (saved, context)) :
    saved.watch = {} ∧ context.watch = top.watch ∧ context.restored = false := by
  rw [saveContext_eq] at h
  obtain ⟨rfl, rfl⟩ := Prod.mk.inj (Except.ok.inj h)
  exact ⟨rfl, rfl, rfl⟩

theorem watch_restoreExtra (host : ByteOrder) {streamExtra : Option (List UInt8)} {s t : Stack P D}
    (h : restoreExtra host streamExtra s = .ok t) : t.map ZStream.watch = s.map ZStream.watch := by
  cases streamExtra with
  | none => rw [← Except.ok.inj h]
  | some extra =>
      change (extraRestore host extra s).map Prod.snd = .ok t at h
      cases hrestore : extraRestore host extra s with
      | error e =>
          rw [hrestore] at h
          cases h
      | ok p =>
          rw [hrestore] at h
          rw [← Except.ok.inj h]
          exact watch_extraRestore host extra hrestore

/-- A restore drops the callbacks of the stream and gives it those of the
context, or it does nothing. -/
theorem watch_restoreContext {host : ByteOrder} {top u : ZStream P D} {below below' : Stack P D}
    {context : Context P D} {restored : Restored P D}
    (h : restoreContext host top below context = .ok restored) (hstack : restored.stack = u :: below') :
    if context.restored then
      restored.notified = [] ∧ u.watch = top.watch ∧ restored.context = context
    else restored.notified = notifyAll top.watch.callback ∧ u.watch = context.watch ∧
      restored.context.restored = true := by
  rw [restoreContext] at h
  split
  · rename_i hr
    rw [if_pos hr] at h
    obtain rfl := Except.ok.inj h
    obtain ⟨rfl, -⟩ := List.cons.inj hstack
    exact ⟨rfl, rfl, rfl⟩
  · rename_i hr
    rw [if_neg hr] at h
    simp only [setNonblock_eq] at h
    cases hextra : restoreExtra host context.streamExtra
        (setMode context.nonblocking
          ({ top with watch := context.watch, timeout := context.timeout } :: below)) with
    | error e =>
        rw [hextra] at h
        cases h
    | ok stack =>
        have hwatch := watch_restoreExtra host hextra
        rw [watch_setMode] at hwatch
        rw [hextra] at h
        obtain rfl := Except.ok.inj h
        simp only at hstack
        rw [hstack, List.map_cons, List.map_cons] at hwatch
        exact ⟨rfl, (List.cons.inj hwatch).1, rfl⟩

/-- The tokens of the custody are the registrations, each with a number of its
own. -/
structure Inv [DecidableEq P] [DecidableEq D] (es : List (UserData.Event P D)) (s : State ι κ P D) :
    Prop where
  kept : Kept (custody es) (holds s)
  serials : ∀ r, .registered r ∈ es → r.serial < s.serial

theorem acquired_mem_custody {es : List (UserData.Event P D)} {r : Registration P D} :
    .acquired r ∈ custody es ↔ .registered r ∈ es := by
  rw [custody, List.mem_filterMap]
  constructor
  · rintro ⟨e, he, heq⟩
    rcases e with r' | ⟨notify, _ | ⟨data, serial⟩⟩ | r' <;> cases heq
    exact he
  · intro h
    exact ⟨_, h, rfl⟩

section Steps

variable {s : State ι κ P D} {es : List (UserData.Event P D)}

theorem registered_notified {notices : List (Notice P (D × Nat))} {r : Registration P D} :
    UserData.Event.registered r ∉ notices.map .notified := by
  simp

theorem registered_overwritten {context : Option (Context P (D × Nat))} {r : Registration P D} :
    UserData.Event.registered r ∉ overwritten context := by
  simp [overwritten]

variable [DecidableEq P] [DecidableEq D]

/-- Steps that register nothing. -/
theorem Inv.step (h : Inv es s) {new : List (UserData.Event P D)} {t : State ι κ P D}
    (hkept : Kept (custody es ++ custody new) (holds t)) (hnew : ∀ r, .registered r ∉ new)
    (hserial : t.serial = s.serial) : Inv (es ++ new) t := by
  constructor
  · rw [custody, List.filterMap_append]
    exact hkept
  · intro r hr
    rw [hserial]
    rcases List.mem_append.mp hr with hr | hr
    · exact h.serials r hr
    · exact absurd hr (hnew r)

theorem Inv.idle (h : Inv es s) {t : State ι κ P D} (hholds : holds t = holds s)
    (hserial : t.serial = s.serial) : Inv (es ++ []) t := by
  rw [List.append_nil]
  constructor
  · rw [hholds]
    exact h.kept
  · rw [hserial]
    exact h.serials

omit [DecidableEq P] [DecidableEq D] in
theorem holds_update [DecidableEq ι] [DecidableEq κ] (s : State ι κ P D) (self : ι) (d : Direction) (cb : SetCb P (D × Nat)) :
    holds { s with
        watches := Function.update s.watches self
          { s.watches self with callback := Function.update (s.watches self).callback d cb }
        serial := s.serial + 1 } =
      Function.update (holds s) (.inl self, d) (registration cb) := by
  funext x
  rcases x with ⟨i | k, d'⟩
  · by_cases hi : i = self
    · by_cases hd : d' = d
      · simp [holds, hi, hd]
      · simp [holds, hi, hd]
    · simp [holds, hi]
  · simp [holds]

variable [DecidableEq ι] [DecidableEq κ]

/-- What releasing all of a row leaves. -/
def without (o : ι ⊕ κ) (held : Place ι κ → Option (Registration P D)) (x : Place ι κ) :
    Option (Registration P D) :=
  if x.1 = o then none else held x

theorem Inv.leaveRow (h : Inv es s) {f : Registration P D → Custody.Event (Registration P D)}
    (hf : f = .released ∨ f = .lost) (o : ι ⊕ κ) :
    Kept (custody es ++
      [Direction.read, .write, .pri].flatMap (fun d => (holds s (o, d)).toList.map f))
      (without o (holds s)) := by
  apply Kept.leaveAll hf (row o) (row_nodup o) h.kept
  · intro x hx
    rw [without, if_pos (mem_row.mp hx)]
  · intro x hx
    rw [without, if_neg (fun ho => hx (mem_row.mpr ho))]

theorem inv_setCallback (h : Inv es s) (self : ι) (d : Direction) (cb : Option P) (data : Option D)
    (notify : Option P) {new : SetCb P (D × Nat)}
    (hnew : new = ⟨cb, data.map (fun data => (data, s.serial)), notify⟩) :
    Inv (es ++ ((notifyOld ((s.watches self).callback d)).map .notified ++ registeredAs new))
      { s with
        watches := Function.update s.watches self
          { s.watches self with callback := Function.update (s.watches self).callback d new }
        serial := s.serial + 1 } := by
  have hleave := h.kept.leave (.inl rfl) (.inl self, d)
  have hserial (r : Registration P D) (hr : registration new = some r) : r.serial = s.serial := by
    rw [hnew] at hr
    cases data with
    | none => cases notify <;> cases hr
    | some data =>
        cases notify with
        | none => cases hr
        | some notify =>
            cases hr
            rfl
  constructor
  · rw [custody, List.filterMap_append, List.filterMap_append, holds_update]
    have hregistered := custody_registeredAs new
    have hnotified := custody_notifyOld ((s.watches self).callback d)
    rw [custody] at hregistered hnotified
    rw [hregistered, hnotified, ← List.append_assoc]
    cases hr : registration new with
    | none =>
        rw [Option.toList_none, List.map_nil, List.append_nil]
        exact hleave
    | some r =>
        have hfresh : .acquired r ∉ custody es ++
            (registration ((s.watches self).callback d)).toList.map Custody.Event.released := by
          intro hin
          rcases List.mem_append.mp hin with hin | hin
          · exact absurd (h.serials r (acquired_mem_custody.mp hin))
              (by rw [hserial r hr]; exact Nat.lt_irrefl _)
          · simp at hin
        have hacquire := hleave.acquire (Function.update_self _ _ _) hfresh
        rw [Function.update_idem] at hacquire
        exact hacquire
  · intro r hr
    rcases List.mem_append.mp hr with hr | hr
    · exact Nat.lt_succ_of_lt (h.serials r hr)
    · rcases List.mem_append.mp hr with hr | hr
      · exact absurd hr registered_notified
      · have hin : registration new = some r := by
          simpa [registeredAs] using hr
        exact Nat.lt_succ_of_le (Nat.le_of_eq (hserial r hin))

omit [DecidableEq P] [DecidableEq D] in
theorem registration_noData (cb notify : Option P) :
    registration (⟨cb, none, notify⟩ : SetCb P (D × Nat)) = none := by
  cases notify <;> rfl

omit [DecidableEq P] [DecidableEq D] in
theorem holds_stream (s : State ι κ P D) (self : ι) (watch : Watch P (D × Nat)) (streams : Streams ι)
    (hwatch : ∀ d, registration (watch.callback d) = none) :
    holds { s with streams := streams, watches := Function.update s.watches self watch } =
      without (.inl self) (holds s) := by
  funext x
  rcases x with ⟨i | k, d⟩
  · by_cases hi : i = self
    · simp [holds, without, hi, hwatch]
    · simp [holds, without, hi]
  · simp [holds, without]

omit [DecidableEq P] [DecidableEq D] in
theorem holds_context (s : State ι κ P D) (k : κ) {context : Option (Context P (D × Nat))}
    (hcontext : ∀ d, pending context d = none) :
    holds { s with contexts := Function.update s.contexts k context } =
      without (.inr k) (holds s) := by
  funext x
  rcases x with ⟨i | k', d⟩
  · simp [holds, without]
  · by_cases hk : k' = k
    · simp [holds, without, hk, hcontext]
    · simp [holds, without, hk]

theorem inv_dropWatch (h : Inv es s) (child : Option ι) (streams : Streams ι) :
    Inv (es ++ (dropWatch child s.watches).1.map .notified)
      { s with streams := streams, watches := (dropWatch child s.watches).2 } := by
  cases child with
  | none => exact h.idle rfl rfl
  | some child =>
      refine h.step ?_ (fun _ => registered_notified) rfl
      have hleave := h.leaveRow (.inl rfl) (.inl child)
      change Kept (custody es ++ custody ((notifyAll (s.watches child).callback).map .notified)) _
      rw [custody_notifyAll]
      have hholds := holds_stream s child (dropCallbacks (s.watches child)).2 streams
        (fun d => registration_noData _ _)
      change Kept _ (holds { s with
        streams := streams
        watches := Function.update s.watches child (dropCallbacks (s.watches child)).2 })
      rw [hholds]
      exact hleave

omit [DecidableEq P] [DecidableEq D] in
/-- A row that goes from a stream to a context. -/
theorem holds_saved (s : State ι κ P D) (self : ι) (k : κ) {context : Context P (D × Nat)}
    (hwatch : context.watch = s.watches self) (hrestored : context.restored = false) :
    holds { s with
        watches := Function.update s.watches self {}
        contexts := Function.update s.contexts k (some context) } =
      moveRow (.inl self) (.inr k) (without (.inr k) (holds s)) := by
  funext x
  rcases x with ⟨i | k', d⟩
  · by_cases hi : i = self
    · simp [holds, moveRow, hi, registration]
    · simp [holds, moveRow, without, hi]
  · by_cases hk : k' = k
    · simp [holds, moveRow, without, hk, pending, hwatch, hrestored]
    · simp [holds, moveRow, without, hk]

theorem inv_saveContext (h : Inv es s) (self : ι) (k : κ) {context : Context P (D × Nat)}
    (hwatch : context.watch = s.watches self) (hrestored : context.restored = false) :
    Inv (es ++ overwritten (s.contexts k)) { s with
        watches := Function.update s.watches self {}
        contexts := Function.update s.contexts k (some context) } := by
  refine h.step ?_ (fun _ => registered_overwritten) rfl
  have hleave := h.leaveRow (.inr rfl) (.inr k)
  rw [holds_saved s self k hwatch hrestored, custody_overwritten]
  apply Kept.moveRow hleave
  intro d
  rw [without, if_pos rfl]

omit [DecidableEq P] [DecidableEq D] in
/-- A row that goes from a context back to a stream. -/
theorem holds_restored (s : State ι κ P D) (self : ι) (k : κ) {context used : Context P (D × Nat)}
    (hcontext : s.contexts k = some context) (hrestored : context.restored = false)
    (hused : used.restored = true) :
    holds { s with
        watches := Function.update s.watches self context.watch
        contexts := Function.update s.contexts k (some used) } =
      moveRow (.inr k) (.inl self) (without (.inl self) (holds s)) := by
  funext x
  rcases x with ⟨i | k', d⟩
  · by_cases hi : i = self
    · simp [holds, moveRow, without, hi, pending, hcontext, hrestored]
    · simp [holds, moveRow, without, hi]
  · by_cases hk : k' = k
    · simp [holds, moveRow, hk, pending, hused]
    · simp [holds, moveRow, without, hk]

theorem inv_restoreContext (h : Inv es s) (self : ι) (k : κ) {context used : Context P (D × Nat)}
    (hcontext : s.contexts k = some context) (hrestored : context.restored = false)
    (hused : used.restored = true) :
    Inv (es ++ (notifyAll (s.watches self).callback).map .notified) { s with
        watches := Function.update s.watches self context.watch
        contexts := Function.update s.contexts k (some used) } := by
  refine h.step ?_ (fun _ => registered_notified) rfl
  have hleave := h.leaveRow (.inl rfl) (.inl self)
  rw [holds_restored s self k hcontext hrestored hused, custody_notifyAll]
  apply Kept.moveRow hleave
  intro d
  rw [without, if_pos rfl]

theorem inv_contextDestroy (h : Inv es s) (k : κ) {context : Context P (D × Nat)}
    (hcontext : s.contexts k = some context) :
    Inv (es ++ (contextDestroy context).1.map .notified)
      { s with contexts := Function.update s.contexts k (some (contextDestroy context).2) } := by
  refine h.step ?_ (fun _ => registered_notified) rfl
  by_cases hr : context.restored = true
  · have hsame : Function.update s.contexts k (some context) = s.contexts := by
      rw [← hcontext]
      exact Function.update_eq_self k s.contexts
    rw [contextDestroy, if_pos hr, hsame]
    exact (List.append_nil (custody es)).symm ▸ h.kept
  · have hleave := h.leaveRow (.inl rfl) (.inr k)
    rw [contextDestroy, if_neg hr, custody_notifyAll,
      holds_context s k (fun d => by rw [pending, if_pos rfl])]
    have hrow (d : Direction) : holds s (.inr k, d) = registration (context.watch.callback d) := by
      rw [holds, hcontext, pending, if_neg hr]
    simp only [hrow] at hleave
    exact hleave

variable [Fintype ι]

theorem inv_step (h : Inv es s) {a : Action ι κ P D} {new : List (UserData.Event P D)}
    {t : State ι κ P D} (hstep : Step a s new t) : Inv (es ++ new) t := by
  cases hstep with
  | setCallback self d cb data notify hnew htop hctrl hanswer =>
      rw [ctrl_setCallback] at hctrl
      obtain rfl := hctrl
      obtain ⟨rfl, -⟩ := List.cons.inj hanswer
      simp only [htop]
      exact inv_setCallback h self d cb data notify hnew
  | stack op _ => exact inv_dropWatch h (droppedChild op s.streams) _
  | dropCallbacks self => exact inv_dropWatch h (some self) s.streams
  | saveContext self k host uninit htop hsave =>
      obtain ⟨hsaved, hwatch, hrestored⟩ := watch_saveContext hsave
      rw [hsaved]
      exact inv_saveContext h self k (hwatch.trans htop) hrestored
  | restoreContext self k host hcontext htop hrestore hstack =>
      rename_i restored
      have hwatch := watch_restoreContext hrestore hstack
      split at hwatch
      · obtain ⟨hnotified, hu, hsame⟩ := hwatch
        have hwatches : Function.update s.watches self (s.watches self) = s.watches :=
          Function.update_eq_self self s.watches
        have hcontexts : Function.update s.contexts k (some restored.context) = s.contexts := by
          rw [hsame, ← hcontext]
          exact Function.update_eq_self k s.contexts
        rw [hnotified, hu, htop, hwatches, hcontexts]
        exact h.idle rfl rfl
      · rename_i hr
        obtain ⟨hnotified, hu, hused⟩ := hwatch
        rw [hnotified, hu, htop]
        exact inv_restoreContext h self k hcontext (Bool.eq_false_iff.mpr hr) hused
  | contextDestroy k hcontext => exact inv_contextDestroy h k hcontext

end Steps

section Counts

variable [DecidableEq P] [DecidableEq D]

/-- How often the notify of a registration has been called on its user
data. -/
def calls (r : Registration P D) (es : List (UserData.Event P D)) : Nat :=
  es.count (.notified ⟨r.notify, some (r.data, r.serial)⟩)

theorem count_released (r : Registration P D) (es : List (UserData.Event P D)) :
    (custody es).count (.released r) = calls r es := by
  induction es with
  | nil => rfl
  | cons e es ih =>
      rw [calls] at ih
      rw [calls, List.count_cons, custody, List.filterMap_cons]
      rcases e with r' | ⟨notify, _ | ⟨data, serial⟩⟩ | r'
      · simpa [toCustody] using ih
      · simpa [toCustody] using ih
      · rcases r with ⟨notify', data', serial'⟩
        simpa [toCustody, List.count_cons] using ih
      · simpa [toCustody] using ih

theorem count_lost (r : Registration P D) (es : List (UserData.Event P D)) :
    (custody es).count (.lost r) = es.count (.overwritten r) := by
  induction es with
  | nil => rfl
  | cons e es ih =>
      rw [List.count_cons, custody, List.filterMap_cons]
      rcases e with r' | ⟨notify, _ | ⟨data, serial⟩⟩ | r'
      · simpa [toCustody] using ih
      · simpa [toCustody] using ih
      · simpa [toCustody] using ih
      · simpa [toCustody, List.count_cons] using ih

theorem gone_custody (r : Registration P D) (es : List (UserData.Event P D)) :
    gone r (custody es) = calls r es + es.count (.overwritten r) := by
  rw [gone, count_released, count_lost]

end Counts

/-- A registration that is in a stream, or in a context that has not been
restored. -/
def Active (s : State ι κ P D) (r : Registration P D) : Prop := Held (holds s) r

/-- What a run has to show for each registration: its notify has not been
called as long as it is active, and has been called once after that, unless a
save has overwritten the context it was in. -/
structure Notified [DecidableEq P] [DecidableEq D] (es : List (UserData.Event P D))
    (s : State ι κ P D) : Prop where
  noNull : ∀ notify, .notified ⟨notify, none⟩ ∉ es
  atMostOnce : ∀ r, calls r es ≤ 1
  active : ∀ r, Active s r → calls r es = 0
  settled : ∀ r, .registered r ∈ es → ¬Active s r → .overwritten r ∉ es → calls r es = 1

section Runs

variable [DecidableEq ι] [DecidableEq κ] [Fintype ι]

/-- The callback that a call replaces has user data, or no notify. -/
def Settled : Action ι κ P D → State ι κ P D → Prop
  | .setCallback self d _ _ _, s =>
      ((s.watches self).callback d).cbNotify ≠ none → ((s.watches self).callback d).cbData ≠ none
  | _, _ => True

omit [DecidableEq ι] [DecidableEq κ] [Fintype ι] in
theorem noNull_notifySet {cb : SetCb P (D × Nat)} {notify : P} : ⟨notify, none⟩ ∉ notifySet cb := by
  rcases cb with ⟨cb, _ | data, _ | notify⟩ <;> simp [notifySet]

omit [DecidableEq ι] [DecidableEq κ] [Fintype ι] in
theorem noNull_notifyAll {callback : Direction → SetCb P (D × Nat)} {notify : P} :
    ⟨notify, none⟩ ∉ notifyAll callback := by
  rw [notifyAll, List.mem_append, List.mem_append]
  rintro ((h | h) | h) <;> exact noNull_notifySet h

omit [DecidableEq κ] [Fintype ι] in
theorem noNull_dropWatch {child : Option ι} {watches : ι → Watch P (D × Nat)} {notify : P} :
    ⟨notify, none⟩ ∉ (dropWatch child watches).1 := by
  cases child with
  | none => exact List.not_mem_nil
  | some child => exact noNull_notifyAll

omit [DecidableEq ι] [DecidableEq κ] [Fintype ι] in
theorem noNull_notifyOld {cb : SetCb P (D × Nat)} {notify : P}
    (h : cb.cbNotify ≠ none → cb.cbData ≠ none) : ⟨notify, none⟩ ∉ notifyOld cb := by
  rcases cb with ⟨cb, _ | data, _ | notify⟩
  · exact List.not_mem_nil
  · exact absurd rfl (h (Option.some_ne_none notify))
  · exact List.not_mem_nil
  · simp [notifyOld]

omit [DecidableEq ι] [DecidableEq κ] [Fintype ι] in
theorem mem_notified {notices : List (Notice P (D × Nat))} {notice : Notice P (D × Nat)} :
    UserData.Event.notified notice ∈ notices.map .notified ↔ notice ∈ notices := by
  simp

/-- A callback can be set in every state. -/
theorem step_setCallback (s : State ι κ P D) (self : ι) (d : Direction) (cb : Option P)
    (data : Option D) (notify : Option P) :
    Step (.setCallback self d cb data notify) s
      ((notifyOld ((s.watches self).callback d)).map .notified ++
        registeredAs ⟨cb, data.map (fun data => (data, s.serial)), notify⟩)
      { s with
        watches := Function.update s.watches self
          { s.watches self with
            callback := Function.update (s.watches self).callback d
              ⟨cb, data.map (fun data => (data, s.serial)), notify⟩ }
        serial := s.serial + 1 } := by
  have hctrl := ctrl_setCallback ({ own := .buf, watch := s.watches self } : ZStream P (D × Nat)) []
    d ⟨cb, data.map (fun data => (data, s.serial)), notify⟩
  exact .setCallback self d cb data notify rfl rfl hctrl rfl

/-- Only a call that replaces a callback can notify a NULL pointer. -/
theorem noNull_step {a : Action ι κ P D} {s t : State ι κ P D} {new : List (UserData.Event P D)}
    (h : Settled a s) (hstep : Step a s new t) (notify : P) : .notified ⟨notify, none⟩ ∉ new := by
  cases hstep with
  | setCallback self d cb data _ hnew htop hctrl _ =>
      rw [ctrl_setCallback] at hctrl
      obtain rfl := hctrl
      intro hin
      rcases List.mem_append.mp hin with hin | hin
      · rw [mem_notified, htop] at hin
        exact noNull_notifyOld h hin
      · simp [registeredAs] at hin
  | stack | dropCallbacks =>
      rw [mem_notified]
      exact noNull_dropWatch
  | saveContext => simp [overwritten]
  | restoreContext _ _ _ _ _ hrestore hstack =>
      rw [mem_notified]
      have hwatch := watch_restoreContext hrestore hstack
      split at hwatch
      · rw [hwatch.1]
        exact List.not_mem_nil
      · rw [hwatch.1]
        exact noNull_notifyAll
  | contextDestroy =>
      rw [mem_notified, contextDestroy]
      split
      · exact List.not_mem_nil
      · exact noNull_notifyAll

/-- Any other call does so. -/
theorem null_of_not_settled {a : Action ι κ P D} {s t : State ι κ P D}
    {new : List (UserData.Event P D)} (h : ¬Settled a s) (hstep : Step a s new t) :
    ∃ notify, .notified ⟨notify, none⟩ ∈ new := by
  cases hstep with
  | setCallback self d cb data _ hnew htop hctrl _ =>
      rw [ctrl_setCallback] at hctrl
      obtain rfl := hctrl
      rw [Settled, Classical.not_imp, not_not] at h
      obtain ⟨notify, hnotify⟩ := Option.ne_none_iff_exists'.mp h.1
      refine ⟨notify, List.mem_append_left _ (mem_notified.mpr ?_)⟩
      rw [htop, notifyOld, hnotify, h.2]
      exact List.mem_singleton_self _
  | stack | dropCallbacks | saveContext | restoreContext | contextDestroy => exact absurd trivial h

variable [DecidableEq P] [DecidableEq D]

omit [DecidableEq ι] [DecidableEq κ] [Fintype ι] in
theorem inv_start (streams : Streams ι) : Inv [] (start streams : State ι κ P D) := by
  have hholds : holds (start streams : State ι κ P D) = fun _ => none := by
    funext x
    rcases x with ⟨i | k, d⟩ <;> rfl
  constructor
  · rw [hholds]
    exact .nil
  · intro r hr
    cases hr

/-- Over any run, each registration is notified at most once, and not before
it is over. -/
theorem inv_steps {Q : Action ι κ P D → State ι κ P D → Prop} {streams : Streams ι}
    {es : List (UserData.Event P D)} {s : State ι κ P D}
    (h : Trace.Steps Step Q (start streams) es s) : Inv es s :=
  h.invariant Inv (inv_start streams) (fun _ _ _ _ _ hinv _ hstep => inv_step hinv hstep)

omit [DecidableEq P] [DecidableEq D] in
theorem noNull_steps {streams : Streams ι} {es : List (UserData.Event P D)} {s : State ι κ P D}
    (h : Trace.Steps Step Settled (start streams) es s) (notify : P) :
    .notified ⟨notify, none⟩ ∉ es := by
  apply h.invariant (fun es _ => .notified ⟨notify, none⟩ ∉ es) List.not_mem_nil
  intro a es s new t hes hset hstep hin
  rcases List.mem_append.mp hin with hin | hin
  · exact hes hin
  · exact noNull_step hset hstep notify hin

/-- In a run that replaces no callback which has a notify but no user data,
each registration is notified once, when it is over. -/
theorem notified_once {streams : Streams ι} {es : List (UserData.Event P D)} {s : State ι κ P D}
    (h : Trace.Steps Step Settled (start streams) es s) : Notified es s := by
  have hinv := inv_steps h
  have hgone (r : Registration P D) := gone_custody r es
  constructor
  · exact noNull_steps h
  · intro r
    by_cases hacq : .registered r ∈ es
    · by_cases hheld : Held (holds s) r
      · have hzero := hinv.kept.held r hheld
        have heq := hgone r
        omega
      · have hone := hinv.kept.unheld r (acquired_mem_custody.mpr hacq) hheld
        have heq := hgone r
        omega
    · have hzero := hinv.kept.unknown r (fun hin => hacq (acquired_mem_custody.mp hin))
      have heq := hgone r
      omega
  · intro r hactive
    have hzero := hinv.kept.held r hactive
    have heq := hgone r
    omega
  · intro r hacq hactive hlost
    have hone := hinv.kept.unheld r (acquired_mem_custody.mpr hacq) hactive
    rw [hgone, List.count_eq_zero_of_not_mem hlost] at hone
    exact hone

end Runs

/-- The state after the first callback of a stream has been set. -/
def callbackSet : State Unit Unit Unit Unit where
  streams := fun _ => streamNew "fd" 3
  watches := fun _ =>
    { callback := Function.update (fun _ => {}) .read ⟨some (), some ((), 0), some ()⟩ }
  serial := 1

theorem step_callbackSet :
    Step (.setCallback () .read (some ()) (some ()) (some ())) (start (fun _ => streamNew "fd" 3))
      [.registered ⟨(), (), 0⟩] callbackSet :=
  step_setCallback _ () .read (some ()) (some ()) (some ())

theorem notified_once_drop :
    Notified [.registered ⟨(), (), 0⟩, .notified ⟨(), some ((), 0)⟩]
      { callbackSet with watches := (dropWatch (some ()) callbackSet.watches).2 } := by
  have hrun : Trace.Steps Step Settled (start (fun _ => streamNew "fd" 3) : State Unit Unit Unit Unit)
    [] _ := .nil _
  have hrun := hrun.snoc step_callbackSet (fun h => absurd rfl h)
  have hrun := hrun.snoc (.dropCallbacks ()) trivial
  exact notified_once hrun

/-- A callback that is set after the callbacks of a stream were dropped. -/
theorem notified_null :
    ¬∀ (es : List (UserData.Event Unit Unit)) (s : State Unit Unit Unit Unit),
      Trace.Steps Step (fun _ _ => True) (start (fun _ => streamNew "fd" 3)) es s →
        Notified es s := by
  intro h
  have hrun : Trace.Steps Step (fun _ _ => True)
    (start (fun _ => streamNew "fd" 3) : State Unit Unit Unit Unit) [] _ := .nil _
  have hrun := hrun.snoc step_callbackSet trivial
  have hrun := hrun.snoc (.dropCallbacks ()) trivial
  have hrun := hrun.snoc (step_setCallback _ () .read (some ()) (some ()) (some ())) trivial
  have hnull := (h _ _ hrun).noNull ()
  apply hnull
  decide

end Libzorpll.NotifiedOnce
