import Libzorpll.Debts
import Libzorpll.StackLife

/-! Who holds the streams of a stack, and its structure. -/

namespace Libzorpll.StackHeld

open StackLife Debts

/-! A stack that has just been made -/

/-- The streams from the first to the last, one on top of the other. -/
def linked (first last : Nat) : Streams := fun j =>
  { refcnt := if first ≤ j ∧ j < last then 2 else 1
    structRef := if first < j ∧ j ≤ last then 2 else 1
    parent := decide (first < j ∧ j ≤ last)
    child := decide (first ≤ j ∧ j < last) }

theorem modify_self (i : Nat) (f : Stream → Stream) (s : Streams) : modify i f s i = f (s i) :=
  Function.update_self _ _ _

theorem modify_other {i j : Nat} (hj : j ≠ i) (f : Stream → Stream) (s : Streams) : modify i f s j = s j :=
  Function.update_of_ne hj _ _

theorem streamRef_self (i : Nat) (s : Streams) : streamRef i s i = { s i with refcnt := (s i).refcnt + 1 } :=
  modify_self _ _ _

theorem streamRef_other {i j : Nat} (hj : j ≠ i) (s : Streams) : streamRef i s j = s j := modify_other hj _ _

theorem streamUnref_self (i : Nat) (s : Streams) : streamUnref i s i = { s i with refcnt := (s i).refcnt - 1 } :=
  modify_self _ _ _

theorem streamUnref_other {i j : Nat} (hj : j ≠ i) (s : Streams) : streamUnref i s j = s j := modify_other hj _ _

theorem structRef_self (i : Nat) (s : Streams) : structRef i s i = { s i with structRef := (s i).structRef + 1 } :=
  modify_self _ _ _

theorem structRef_other {i j : Nat} (hj : j ≠ i) (s : Streams) : structRef i s j = s j := modify_other hj _ _

theorem push_linked {i last : Nat} (hi : i < last) : push i (linked (i + 1) last) = linked i last := by
  have hne : i ≠ i + 1 := Nat.ne_of_lt (Nat.lt_succ_self i)
  funext j
  rcases Nat.lt_trichotomy j i with hlt | rfl | hlt
  · have hj : j ≠ i ∧ j ≠ i + 1 := by omega
    simp only [push, setChild, streamUnref_other hj.2, structRef_other hj.2, modify_other hj.1, streamRef_other hj.2,
      modify_other hj.2, streamRef_other hj.1]
    simp [linked, Nat.not_le.mpr hlt, show ¬i + 1 ≤ j by omega, show ¬i < j by omega, show ¬i + 1 < j by omega]
  · simp only [push, setChild, streamUnref, streamRef, structRef, modify_other hne, modify_self]
    simp [linked, hi]
  · rcases Nat.eq_or_lt_of_le hlt with rfl | hlt
    · simp only [push, setChild, streamUnref, streamRef, structRef, modify_other hne.symm, modify_self]
      simp [linked, Nat.succ_le_of_lt hi]
    · have hj : j ≠ i ∧ j ≠ i + 1 := by omega
      simp only [push, setChild, streamUnref_other hj.2, structRef_other hj.2, modify_other hj.1, streamRef_other hj.2,
      modify_other hj.2, streamRef_other hj.1]
      simp [linked, show i + 1 ≤ j by omega, show i ≤ j by omega, show i < j by omega, show i + 1 < j by omega]

theorem pushes_linked {i last : Nat} (hi : i ≤ last) : pushes i (linked i last) = linked 0 last := by
  induction i with
  | zero => rfl
  | succ i ih =>
      rw [pushes, push_linked hi]
      exact ih (Nat.le_of_succ_le hi)

theorem linked_last (last : Nat) : linked last last = fun _ => {} := by
  funext j
  have hnot : ¬(last ≤ j ∧ j < last) ∧ ¬(last < j ∧ j ≤ last) := by omega
  simp [linked, hnot.1, hnot.2]

theorem attach_stream {below i : Nat} {s : Streams} (hchild : ∀ j, i ≤ j → j < i + below → (s j).child = true) (j : Nat) :
    attach below i s j = if i ≤ j ∧ j ≤ i + below
      then { s j with refcnt := (s j).refcnt + 1, structRef := (s j).structRef + 1, source := true, sourceRef := true }
      else s j := by
  induction below generalizing i s with
  | zero =>
      rw [attach]
      by_cases hj : j = i
      · subst hj
        simp [streamUnref, streamRef, structRef, modify_self]
      · have hnot : ¬(i ≤ j ∧ j ≤ i + 0) := by omega
        simp only [streamUnref, streamRef, structRef, modify_other hj, if_neg hnot]
  | succ below ih =>
      have hi : (structRef i (streamRef i s) i).child = true := by
        rw [structRef, modify_self, streamRef, modify_self]
        exact hchild i (Nat.le_refl i) (by omega)
      have hbelow : ∀ j, i + 1 ≤ j → j < i + 1 + below → (structRef i (streamRef i s) j).child = true := by
        intro j hj hlt
        rw [structRef, modify_other (by omega), streamRef, modify_other (by omega)]
        exact hchild j (by omega) (by omega)
      rw [attach]
      simp only [if_pos hi]
      by_cases hj : j = i
      · subst hj
        have hnot : ¬(j + 1 ≤ j ∧ j ≤ j + 1 + below) := by omega
        rw [streamUnref_self, modify_self, streamRef_self, ih hbelow, if_neg hnot, structRef_self, streamRef_self,
          if_pos ⟨Nat.le_refl j, by omega⟩]
        simp
      · rw [streamUnref_other hj, modify_other hj, streamRef_other hj, ih hbelow, structRef_other hj, streamRef_other hj]
        have hiff : (i + 1 ≤ j ∧ j ≤ i + 1 + below) ↔ (i ≤ j ∧ j ≤ i + (below + 1)) := by omega
        simp only [hiff]

variable {T : Type} [DecidableEq T]

theorem made_beyond (user : Option T) (depth : Nat) (polled : Bool) {j : Nat} (hj : depth < j) :
    ((made user depth polled).streams j).source = false ∧ ((made user depth polled).streams j).sourceRef = false := by
  have hlinked : pushes depth (fun _ => {}) = linked 0 depth := by
    rw [← linked_last depth, pushes_linked (Nat.le_refl depth)]
  have hnot : ¬(0 ≤ j ∧ j ≤ 0 + depth) := by omega
  cases polled with
  | false => simp [made, hlinked, linked]
  | true =>
      have hchild : ∀ j, 0 ≤ j → j < 0 + depth → (linked 0 depth j).child = true := by
        intro j _ hlt
        rw [Nat.zero_add] at hlt
        simp [linked, hlt]
      simp only [made, hlinked, if_true]
      rw [attach_stream hchild, if_neg hnot]
      exact ⟨rfl, rfl⟩

theorem made_stream (user : Option T) (depth : Nat) (polled : Bool) {j : Nat} (hj : j ≤ depth) :
    (made user depth polled).streams j =
      { refcnt := (if j < depth then 2 else 1) + if polled then 1 else 0
        structRef := (if 0 < j then 2 else 1) + if polled then 1 else 0
        parent := decide (0 < j)
        child := decide (j < depth)
        source := polled
        sourceRef := polled } := by
  have hlinked : pushes depth (fun _ => {}) = linked 0 depth := by
    rw [← linked_last depth, pushes_linked (Nat.le_refl depth)]
  have hj0 : 0 ≤ j ∧ j ≤ 0 + depth := ⟨Nat.zero_le j, by omega⟩
  cases polled with
  | false => simp [made, hlinked, linked, hj]
  | true =>
      have hchild : ∀ j, 0 ≤ j → j < 0 + depth → (linked 0 depth j).child = true := by
        intro j _ hlt
        rw [Nat.zero_add] at hlt
        simp [linked, hlt]
      simp only [made, hlinked, if_true]
      rw [attach_stream hchild, if_pos hj0]
      simp [linked, hj]

/-! What there is to give back -/

def one (b : Bool) : Int := if b then 1 else 0

theorem one_nonneg (b : Bool) : 0 ≤ one b := by
  cases b
  · exact Int.le_refl 0
  · exact Int.one_nonneg

/-- The references to the structure of i that a frame gives back. -/
def owes (i : Nat) : Frame → Int
  | .close j => if j ≤ i then 1 else 0
  | .structUnref j => if j = i then 1 else 0
  | _ => 0

/-- The references to the stream i that a frame gives back. -/
def gives (i : Nat) : Frame → Int
  | .unref j => if j = i then 1 else 0
  | _ => 0

def detaching : Frame → Int
  | .detach _ | .descend _ => 1
  | _ => 0

theorem owes_nonneg (i : Nat) (f : Frame) : 0 ≤ owes i f := by
  cases f with
  | close | structUnref =>
      rw [owes]
      split
      · exact Int.one_nonneg
      · exact Int.le_refl 0
  | _ => exact Int.le_refl 0

theorem gives_nonneg (i : Nat) (f : Frame) : 0 ≤ gives i f := by
  cases f with
  | unref =>
      rw [gives]
      split
      · exact Int.one_nonneg
      · exact Int.le_refl 0
  | _ => exact Int.le_refl 0

theorem detaching_nonneg (f : Frame) : 0 ≤ detaching f := by
  cases f with
  | detach | descend => exact Int.one_nonneg
  | _ => exact Int.le_refl 0

/-- The stream above has it as its child. -/
def linkAbove (s : Streams) : Nat → Bool
  | 0 => false
  | i + 1 => (s i).child

/-- A frame that uses the structure. -/
def structural : Frame → Bool
  | .close _ | .detach _ | .descend _ | .structUnref _ | .unlink _ | .callback _ _ | .inCallback _ _ => true
  | _ => false

/-- A frame that relies on a reference which is given back after it. -/
def needs : Frame → Bool
  | .close 0 | .detach 0 | .structUnref 0 => false
  | .close _ | .detach _ | .descend _ | .structUnref _ | .callback _ _ | .inCallback _ _ => true
  | _ => false

def Tailed : List Frame → Prop
  | [] => True
  | f :: rest => (needs f = true → 0 < owed (owes 0) rest) ∧ Tailed rest

/-- The dispatch of a source waits for the rest. -/
def InDispatch (todo : List Frame) : Prop := ∃ i poll, todo.getLast? = some (.release i poll)

/-- A frame that nothing is put upon. -/
def first : Frame → Bool
  | .grab _ _ | .callback _ _ => true
  | _ => false

def FrameOk (s : Stack T) (a : Option T) : Frame → Prop
  | .close i | .detach i | .descend i | .structUnref i | .unlink i | .unref i => i ≤ s.depth
  | .detached => True
  | .grab i poll => .release i poll ∈ s.todo a ∧ InDispatch (s.todo a)
  | .callback i top | .inCallback i top => a = none ∧ i ≤ s.depth ∧ top = 0 ∧ InDispatch (s.todo a)
  | .release i _ => a = none ∧ i ≤ s.depth ∧ (s.streams i).sourceRef = true

def Quiet (todo : List Frame) : Prop := ∀ f ∈ todo, structural f = false

/-- The structure of a stack that is held. -/
structure Whole (s : Stack T) : Prop where
  held : 0 < (s.streams 0).structRef
  linked : ∀ i, i < s.depth → (s.streams i).child = true
  tailed : ∀ a, Tailed (s.todo a)
  unlinks : ∀ a i, .unlink i ∉ s.todo a

/-- Nobody has a reference to the structure any more. -/
structure Over (s : Stack T) : Prop where
  closed : s.isOpen = false
  detached : s.attached = false
  sources : ∀ i, i ≤ s.depth → (s.streams i).source = false

/-- The first links are cut. -/
def Cut (k : Nat) (s : Stack T) : Prop := ∀ i, i < s.depth → (s.streams i).child = decide (k ≤ i)

/-- The structure is held, or one thread is taking it apart from the top to the
bottom, or this has been done. -/
inductive Phase (s : Stack T) : Prop
  | whole (h : Whole s)
  | breaking (k : Nat) (a : Option T) (rest : List Frame) (hk : k < s.depth) (hover : Over s) (hcut : Cut k s)
      (htodo : s.todo a = .unlink k :: rest) (hrest : Quiet rest) (hothers : ∀ b, b ≠ a → Quiet (s.todo b))
  | passing (k : Nat) (a : Option T) (rest : List Frame) (hk : 0 < k) (hdepth : k ≤ s.depth) (hover : Over s)
      (hcut : Cut k s) (htodo : s.todo a = .structUnref k :: rest) (hunref : .unref k ∈ rest) (hrest : Quiet rest)
      (hothers : ∀ b, b ≠ a → Quiet (s.todo b))
  | broken (hover : Over s) (hcut : Cut s.depth s) (hquiet : ∀ b, Quiet (s.todo b))

variable [Fintype T]

/-- What is counted. -/
structure Counted (s : Stack T) : Prop where
  structs : ∀ i, i ≤ s.depth → (s.streams i).structRef =
    one s.isOpen + one (linkAbove s.streams i) + one (s.streams i).source + debt (owes i) s.todo
  refs : ∀ i, i ≤ s.depth → (s.streams i).refcnt = (if i = 0 then ∑ a, (s.hold a : Int) else 0) +
    one (linkAbove s.streams i) + one (s.streams i).child + one (s.streams i).sourceRef + debt (gives i) s.todo
  parents : ∀ i, i < s.depth → (s.streams (i + 1)).parent = (s.streams i).child
  last : (s.streams s.depth).child = false

/-- Where the sources are, and the one call that takes them off. -/
structure Sourced (s : Stack T) : Prop where
  refs : ∀ i, (s.streams i).source = true → (s.streams i).sourceRef = true
  depth : ∀ i, (s.streams i).sourceRef = true → i ≤ s.depth
  single : debt detaching s.todo + one s.attached ≤ 1
  attached : s.attached = true → ∀ i, i ≤ s.depth → (s.streams i).source = true
  detach : ∀ a j, .detach j ∈ s.todo a → ∀ i, i ≤ s.depth → (s.streams i).source = decide (j ≤ i)
  descend : ∀ a j, .descend j ∈ s.todo a → ∀ i, i ≤ s.depth → (s.streams i).source = decide (j < i)
  finished : s.attached = false → debt detaching s.todo = 0 → ∀ i, i ≤ s.depth → (s.streams i).source = false

structure Inv (es : List (Event T)) (s : Stack T) : Prop where
  counted : Counted s
  sourced : Sourced s
  frames : ∀ a, ∀ f ∈ s.todo a, FrameOk s a f
  anchor : ∀ a, ∀ f ∈ s.todo a, structural f = true → 0 < s.hold a ∨ InDispatch (s.todo a)
  heads : ∀ a, ∀ f ∈ (s.todo a).tail, first f = false
  phase : Phase s
  freed : ∀ i, es.count (.freed i) = if i ≤ s.depth ∧ (s.streams i).refcnt = 0 then 1 else 0
  aborted : .aborted ∉ es

omit [DecidableEq T] in
theorem debt_nothing {w : Frame → Int} {todo : Option T → List Frame} (h : ∀ a, todo a = []) : debt w todo = 0 :=
  debt_eq_zero fun a f hf => absurd hf (by rw [h a]; exact List.not_mem_nil)

theorem counted_made (user : Option T) (depth : Nat) (polled : Bool) : Counted (made user depth polled) where
  structs i hi := by
    have hdebt : debt (owes i) (made user depth polled).todo = 0 := debt_nothing fun _ => rfl
    have hi' : i ≤ depth := hi
    rw [made_stream user depth polled hi', hdebt]
    cases i with
    | zero => cases polled <;> rfl
    | succ j =>
        have hchild : ((made user depth polled).streams j).child = true := by
          rw [made_stream user depth polled (Nat.le_of_succ_le hi')]
          exact decide_eq_true hi'
        rw [linkAbove, hchild]
        cases polled <;> rfl
  refs i hi := by
    have hdebt : debt (gives i) (made user depth polled).todo = 0 := debt_nothing fun _ => rfl
    have hi' : i ≤ depth := hi
    have hhold : ∑ a, ((made user depth polled).hold a : Int) = 1 := by
      rw [Finset.sum_eq_single user]
      · simp [made]
      · intro b _ hb
        simp [made, hb]
      · exact fun hnot => absurd (Finset.mem_univ user) hnot
    rw [made_stream user depth polled hi', hdebt, hhold]
    cases i with
    | zero => cases polled <;> by_cases hdepth : 0 < depth <;> simp [linkAbove, one, hdepth]
    | succ j =>
        have hchild : ((made user depth polled).streams j).child = true := by
          rw [made_stream user depth polled (Nat.le_of_succ_le hi')]
          exact decide_eq_true hi'
        rw [linkAbove, hchild]
        cases polled <;> by_cases hdepth : j + 1 < depth <;> simp [one, hdepth]
  parents i hi := by
    have hi' : i < depth := hi
    rw [made_stream user depth polled hi', made_stream user depth polled (Nat.le_of_lt hi')]
    simp [hi']
  last := by
    have hdepth : (made user depth polled).depth = depth := rfl
    rw [hdepth, made_stream user depth polled (Nat.le_refl depth)]
    exact decide_eq_false (Nat.lt_irrefl depth)

theorem sourced_made (user : Option T) (depth : Nat) (polled : Bool) : Sourced (made user depth polled) := by
  have hsource (i : Nat) : ((made user depth polled).streams i).source = (polled && decide (i ≤ depth)) ∧
      ((made user depth polled).streams i).sourceRef = (polled && decide (i ≤ depth)) := by
    by_cases hi : i ≤ depth
    · rw [made_stream user depth polled hi, decide_eq_true hi, Bool.and_true]
      exact ⟨rfl, rfl⟩
    · rw [decide_eq_false hi, Bool.and_false]
      exact made_beyond user depth polled (Nat.lt_of_not_le hi)
  have hdebt : debt detaching (made user depth polled).todo = 0 := debt_nothing fun _ => rfl
  constructor
  · intro i hi
    rw [(hsource i).2, ← (hsource i).1]
    exact hi
  · intro i hi
    rw [(hsource i).2, Bool.and_eq_true, decide_eq_true_iff] at hi
    exact hi.2
  · rw [hdebt]
    cases polled
    · exact Int.zero_le_ofNat 1
    · exact Int.le_refl 1
  · intro hattached i hi
    have hpolled : polled = true := hattached
    have hi' : i ≤ depth := hi
    rw [(hsource i).1, hpolled, decide_eq_true hi']
    rfl
  · intro a j hmem
    exact absurd hmem List.not_mem_nil
  · intro a j hmem
    exact absurd hmem List.not_mem_nil
  · intro hattached _ i _
    have hpolled : polled = false := hattached
    rw [(hsource i).1, hpolled]
    rfl

theorem inv_made (user : Option T) (depth : Nat) (polled : Bool) : Inv [] (made user depth polled) := by
  refine ⟨counted_made user depth polled, sourced_made user depth polled, fun a f hf => absurd hf List.not_mem_nil,
    fun a f hf => absurd hf List.not_mem_nil, fun a f hf => absurd hf List.not_mem_nil, .whole ⟨?_, ?_, fun _ => trivial,
    fun _ _ => List.not_mem_nil⟩, fun i => ?_, List.not_mem_nil⟩
  · rw [made_stream user depth polled (Nat.zero_le depth)]
    cases polled <;> simp
  · intro i hi
    have hi' : i < depth := hi
    rw [made_stream user depth polled (Nat.le_of_lt hi')]
    exact decide_eq_true hi'
  · rw [List.count_nil, if_neg]
    rintro ⟨hi, hzero⟩
    have hi' : i ≤ depth := hi
    rw [made_stream user depth polled hi'] at hzero
    by_cases hlt : i < depth <;> cases polled <;> simp [hlt] at hzero

end Libzorpll.StackHeld
