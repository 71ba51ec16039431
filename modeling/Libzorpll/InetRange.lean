import Libzorpll.Rounds

/-! z_sockaddr_inet_range_bind, and the runs of calls that stay in the range. -/

namespace Libzorpll.InetRange

open Rounds

inductive Halt
  | endless
  deriving DecidableEq

inductive GIOStatus
  | error
  | normal
  deriving DecidableEq

/-- The port of sin stands in host order. -/
structure ZSockAddrInetRange where
  sinPort : UInt16
  minPort : UInt16
  maxPort : UInt16
  lastPort : UInt16
  deriving DecidableEq

/-- The constructor, with what rand answers. -/
def newInaddr (rand : Nat) (minPort maxPort : UInt16) : ZSockAddrInetRange :=
  let lastPort :=
    if minPort < maxPort then UInt16.ofNat (rand % (maxPort.toNat - minPort.toNat)) + minPort
    else if maxPort = minPort then minPort else 0
  ⟨0, minPort, maxPort, lastPort⟩

/-- The cast in front of rand binds closer than the remainder. -/
def clone (rand : Nat) (self : ZSockAddrInetRange) : ZSockAddrInetRange :=
  if self.minPort < self.maxPort then
    let start := (UInt16.ofNat rand).toNat % (self.maxPort.toNat - self.minPort.toNat)
    { self with lastPort := UInt16.ofNat start + self.minPort }
  else if self.maxPort = self.minPort then { self with lastPort := self.minPort }
  else self

/-- A loop over the ports, with those that z_ll_bind was called for. -/
structure Search where
  self : ZSockAddrInetRange
  port : UInt16
  tried : List UInt16

/-- The body of both loops. The port is a guint16. -/
def bindRound (binds : Nat → Bool) (s : Search) : Except Halt (Option Bool × Search) :=
  if s.port ≤ s.self.maxPort then
    let self := { s.self with sinPort := s.port }
    let tried := s.tried ++ [self.sinPort]
    if binds s.tried.length = true then
      .ok (some true, ⟨{ self with lastPort := s.port + 1 }, s.port, tried⟩)
    else .ok (none, ⟨self, s.port + 1, tried⟩)
  else .ok (some false, s)

def bindLoop (fuel : Nat) (binds : Nat → Bool) (s : Search) : Except Halt (Bool × Search) :=
  Run.loop (bindRound binds) .endless fuel s

/-- Of each attempt of the call it is given whether it binds. -/
def zSockaddrInetRangeBind (fuel : Nat) (binds : Nat → Bool) (self : ZSockAddrInetRange) :
    Except Halt (GIOStatus × List UInt16 × ZSockAddrInetRange) :=
  if self.maxPort < self.minPort then .ok (.error, [], self)
  else do
    let (bound, s) ← bindLoop fuel binds ⟨self, self.lastPort, []⟩
    if bound then return (.normal, s.tried, s.self)
    let (bound, s) ← bindLoop fuel binds { s with port := s.self.minPort }
    if bound then return (.normal, s.tried, s.self)
    return (.error, s.tried, { s.self with lastPort := s.self.minPort })

/-! Runs -/

inductive Call
  | bind (binds : Nat → Bool)
  | clone (rand : Nat)

def InRange (minPort maxPort port : UInt16) : Prop := minPort ≤ port ∧ port ≤ maxPort

/-- Every port of the range was tried and refused. -/
def Refused (minPort maxPort : UInt16) (binds : Nat → Bool) (tried : List UInt16) : Prop :=
  ∀ port, InRange minPort maxPort port → ∃ k, tried[k]? = some port ∧ binds k = false

/-- Every call comes back, has tried ports of the range only, and all of them
if it failed. -/
def StaysInRange (minPort maxPort : UInt16) : List Call → ZSockAddrInetRange → Prop
  | [], _ => True
  | .bind binds :: calls, self =>
      ∃ fuel status tried next, zSockaddrInetRangeBind fuel binds self = .ok (status, tried, next) ∧
        (∀ port ∈ tried, InRange minPort maxPort port) ∧
        (status = .error → Refused minPort maxPort binds tried) ∧ StaysInRange minPort maxPort calls next
  | .clone rand :: calls, self => StaysInRange minPort maxPort calls (clone rand self)

/-- The range ends below the last port of all; or the search begins in it and
a port is bound before the counter wraps. -/
def Bounded (binds : Nat → Bool) (self : ZSockAddrInetRange) : Prop :=
  self.maxPort < 65535 ∨
    (self.minPort ≤ self.lastPort ∧ ∃ k, self.lastPort.toNat + k ≤ 65535 ∧ binds k = true)

def EachBounded : List Call → ZSockAddrInetRange → Prop
  | [], _ => True
  | .bind binds :: calls, self =>
      Bounded binds self ∧ ∀ fuel status tried next,
        zSockaddrInetRangeBind fuel binds self = .ok (status, tried, next) → EachBounded calls next
  | .clone rand :: calls, self => EachBounded calls (clone rand self)

variable {minPort maxPort start port : UInt16} {binds : Nat → Bool} {self next : ZSockAddrInetRange} {s t : Search}
  {bound : Bool} {fuel : Nat} {status : GIOStatus} {tried : List UInt16}

/-! One round -/

/-- Behind an attempt that failed. -/
def refusedAt (s : Search) : Search :=
  ⟨{ s.self with sinPort := s.port }, s.port + 1, s.tried ++ [s.port]⟩

/-- Behind one that did not. -/
def boundAt (s : Search) : Search :=
  ⟨{ s.self with sinPort := s.port, lastPort := s.port + 1 }, s.port, s.tried ++ [s.port]⟩

theorem bindRound_refused (hport : s.port ≤ s.self.maxPort) (hbinds : binds s.tried.length = false) :
    bindRound binds s = .ok (none, refusedAt s) := by
  rw [bindRound, if_pos hport, hbinds, if_neg Bool.false_ne_true]
  rfl

theorem bindRound_bound (hport : s.port ≤ s.self.maxPort) (hbinds : binds s.tried.length = true) :
    bindRound binds s = .ok (some true, boundAt s) := by
  rw [bindRound, if_pos hport, hbinds, if_pos rfl]
  rfl

theorem toNat_next (h : port.toNat < 65535) : (port + 1).toNat = port.toNat + 1 := by
  rw [UInt16.toNat_add, UInt16.toNat_one]
  omega

/-- A port is bound before the counter wraps, if it can. -/
def Room (binds : Nat → Bool) (s : Search) : Prop :=
  s.self.maxPort < 65535 ∨ ∃ k, s.port.toNat + k ≤ 65535 ∧ binds (s.tried.length + k) = true

/-- Where an attempt fails the counter does not wrap. -/
theorem port_lt (hroom : Room binds s) (hport : s.port ≤ s.self.maxPort) (hbinds : binds s.tried.length = false) :
    s.port.toNat < 65535 := by
  rcases hroom with hmax | ⟨k, hk, htrue⟩
  · exact Nat.lt_of_le_of_lt (UInt16.le_iff_toNat_le.mp hport) (UInt16.lt_iff_toNat_lt.mp hmax)
  · cases k with
    | zero =>
        rw [Nat.add_zero, hbinds] at htrue
        cases htrue
    | succ k => omega

theorem room_next (hroom : Room binds s) (hport : s.port ≤ s.self.maxPort) (hbinds : binds s.tried.length = false) :
    Room binds (refusedAt s) := by
  have hlt := port_lt hroom hport hbinds
  rcases hroom with hmax | ⟨k, hk, htrue⟩
  · exact .inl hmax
  · cases k with
    | zero =>
        rw [Nat.add_zero, hbinds] at htrue
        cases htrue
    | succ k =>
        refine .inr ⟨k, ?_, ?_⟩
        · change (s.port + 1).toNat + k ≤ 65535
          rw [toNat_next hlt]
          omega
        · change binds ((s.tried ++ [s.port]).length + k) = true
          rw [List.length_append, List.length_singleton, Nat.add_assoc, Nat.add_comm 1 k]
          exact htrue

/-! One loop -/

/-- An address that the next call can start with. -/
structure Ready (minPort maxPort : UInt16) (addr : ZSockAddrInetRange) : Prop where
  low : addr.minPort = minPort
  high : addr.maxPort = maxPort
  last : maxPort < 65535 → minPort.toNat ≤ addr.lastPort.toNat ∧ addr.lastPort.toNat ≤ maxPort.toNat + 1

/-- What holds in a loop that began in the range or right behind it. -/
structure Searching (minPort maxPort start : UInt16) (binds : Nat → Bool) (s : Search) : Prop where
  low : s.self.minPort = minPort
  high : s.self.maxPort = maxPort
  above : minPort.toNat ≤ s.port.toNat
  below : s.port.toNat ≤ maxPort.toNat + 1
  tried : ∀ port ∈ s.tried, InRange minPort maxPort port
  refused : ∀ port, start ≤ port → port < s.port → ∃ k, s.tried[k]? = some port ∧ binds k = false
  room : Room binds s

/-- What a loop ends with. -/
def Searched (minPort maxPort start : UInt16) (binds : Nat → Bool) (bound : Bool) (s : Search) : Prop :=
  if bound then (∀ port ∈ s.tried, InRange minPort maxPort port) ∧ Ready minPort maxPort s.self
  else Searching minPort maxPort start binds s ∧ maxPort < s.port

theorem tried_next (h : Searching minPort maxPort start binds s) (hport : s.port ≤ maxPort) :
    ∀ port ∈ s.tried ++ [s.port], InRange minPort maxPort port := by
  intro port hmem
  rcases List.mem_append.mp hmem with hbefore | hlast
  · exact h.tried port hbefore
  · rw [List.mem_singleton.mp hlast]
    exact ⟨UInt16.le_iff_toNat_le.mpr h.above, hport⟩

theorem refused_next (h : Searching minPort maxPort start binds s) (hlt : s.port.toNat < 65535)
    (hbinds : binds s.tried.length = false) (port : UInt16) (hstart : start ≤ port) (hnext : port < s.port + 1) :
    ∃ k, (s.tried ++ [s.port])[k]? = some port ∧ binds k = false := by
  rw [UInt16.lt_iff_toNat_lt, toNat_next hlt] at hnext
  by_cases hlast : port = s.port
  · refine ⟨s.tried.length, ?_, hbinds⟩
    rw [hlast, List.getElem?_concat_length]
  · have hne : port.toNat ≠ s.port.toNat := fun h => hlast (UInt16.toNat_inj.mp h)
    obtain ⟨k, hk, hfalse⟩ := h.refused port hstart (UInt16.lt_iff_toNat_lt.mpr (by omega))
    obtain ⟨hlen, -⟩ := List.getElem?_eq_some_iff.mp hk
    exact ⟨k, by rw [List.getElem?_append_left hlen, hk], hfalse⟩

theorem searching_next (h : Searching minPort maxPort start binds s) (hport : s.port ≤ maxPort)
    (hbinds : binds s.tried.length = false) :
    Searching minPort maxPort start binds (refusedAt s) ∧ (refusedAt s).port.toNat = s.port.toNat + 1 := by
  have hself : s.port ≤ s.self.maxPort := h.high ▸ hport
  have hle := UInt16.le_iff_toNat_le.mp hport
  have habove := h.above
  have hlt := port_lt h.room hself hbinds
  have hnext : (refusedAt s).port.toNat = s.port.toNat + 1 := toNat_next hlt
  exact ⟨⟨h.low, h.high, by omega, by omega, tried_next h hport, refused_next h hlt hbinds,
    room_next h.room hself hbinds⟩, hnext⟩

theorem searched_bound (h : Searching minPort maxPort start binds s) (hport : s.port ≤ maxPort) :
    Searched minPort maxPort start binds true (boundAt s) := by
  refine ⟨tried_next h hport, h.low, h.high, fun hmax => ?_⟩
  have hle := UInt16.le_iff_toNat_le.mp hport
  have habove := h.above
  have hnext : (boundAt s).self.lastPort.toNat = s.port.toNat + 1 :=
    toNat_next (Nat.lt_of_le_of_lt hle (UInt16.lt_iff_toNat_lt.mp hmax))
  omega

theorem search_round (h : Searching minPort maxPort start binds s) :
    ∃ r t, bindRound binds s = .ok (r, t) ∧
      Run.Round (fun t => Searching minPort maxPort start binds t ∧
          (True → maxPort.toNat + 1 - t.port.toNat < maxPort.toNat + 1 - s.port.toNat))
        (Searched minPort maxPort start binds) r t := by
  by_cases hport : s.port ≤ maxPort
  · have hle := UInt16.le_iff_toNat_le.mp hport
    have hself : s.port ≤ s.self.maxPort := h.high ▸ hport
    cases hbinds : binds s.tried.length with
    | true => exact ⟨some true, boundAt s, bindRound_bound hself hbinds, searched_bound h hport⟩
    | false =>
        obtain ⟨hsearching, hnext⟩ := searching_next h hport hbinds
        exact ⟨none, refusedAt s, bindRound_refused hself hbinds, hsearching, fun _ => by omega⟩
  · have hself : ¬s.port ≤ s.self.maxPort := h.high ▸ hport
    exact ⟨some false, s, by rw [bindRound, if_neg hself], h, UInt16.not_le.mp hport⟩

theorem search_ends (h : Searching minPort maxPort start binds s) :
    ∃ bound t, bindLoop (maxPort.toNat + 2) binds s = .ok (bound, t) ∧
      Searched minPort maxPort start binds bound t := by
  rcases Run.loop_rule True (fun t : Search => maxPort.toNat + 1 - t.port.toNat) (fun s hs => search_round hs)
    (maxPort.toNat + 2) h with ⟨-, hfuel⟩ | hends
  · have hle := hfuel trivial
    omega
  · exact hends

/-! One call -/

theorem Ready.valid (h : Ready minPort maxPort self) (hrange : minPort ≤ maxPort) : ¬self.maxPort < self.minPort := by
  rw [h.low, h.high]
  exact UInt16.not_lt.mpr hrange

/-- The first loop begins at the port that is next. -/
theorem first_searching (h : Ready minPort maxPort self) (hbounded : Bounded binds self) :
    Searching minPort maxPort self.lastPort binds ⟨self, self.lastPort, []⟩ := by
  have hlast : minPort.toNat ≤ self.lastPort.toNat ∧ self.lastPort.toNat ≤ maxPort.toNat + 1 := by
    by_cases hmax : maxPort < 65535
    · exact h.last hmax
    · rw [Bounded, h.low, h.high, or_iff_right hmax] at hbounded
      have hmin := UInt16.le_iff_toNat_le.mp hbounded.1
      have htop := self.lastPort.toNat_lt
      have hnot : 65535 ≤ maxPort.toNat := UInt16.le_iff_toNat_le.mp (UInt16.not_lt.mp hmax)
      exact ⟨hmin, by omega⟩
  have hroom : Room binds ⟨self, self.lastPort, []⟩ := by
    refine hbounded.imp_right ?_
    rintro ⟨-, k, hk, hbinds⟩
    exact ⟨k, hk, by rwa [List.length_nil, Nat.zero_add]⟩
  exact ⟨h.low, h.high, hlast.1, hlast.2, fun port h => (List.not_mem_nil h).elim,
    fun port hstart hlt => absurd hlt (UInt16.not_lt.mpr hstart), hroom⟩

/-- The second one follows where the counter could go past the range. -/
theorem second_searching (hrange : minPort ≤ maxPort) (h : Searching minPort maxPort start binds s)
    (hpast : maxPort < s.port) :
    Searching minPort maxPort minPort binds { s with port := s.self.minPort } := by
  have hle := UInt16.le_iff_toNat_le.mp hrange
  have hmax : maxPort < 65535 := by
    have hport := UInt16.lt_iff_toNat_lt.mp hpast
    have htop := s.port.toNat_lt
    exact UInt16.lt_iff_toNat_lt.mpr (show maxPort.toNat < 65535 by omega)
  rw [h.low]
  exact ⟨h.low, h.high, Nat.le_refl _, Nat.le_succ_of_le hle, h.tried,
    fun port hstart hlt => absurd hlt (UInt16.not_lt.mpr hstart), .inl (h.high ▸ hmax)⟩

/-- A call for which there is room stays in the range, and so can the next. -/
theorem bind_stays (hrange : minPort ≤ maxPort) (hready : Ready minPort maxPort self) (hbounded : Bounded binds self) :
    ∃ status tried next, zSockaddrInetRangeBind (maxPort.toNat + 2) binds self = .ok (status, tried, next) ∧
      (∀ port ∈ tried, InRange minPort maxPort port) ∧ (status = .error → Refused minPort maxPort binds tried) ∧
      Ready minPort maxPort next := by
  obtain ⟨bound, s, hloop, hsearched⟩ := search_ends (first_searching hready hbounded)
  rw [zSockaddrInetRangeBind, if_neg (hready.valid hrange), hloop, Run.ok_bind]
  cases bound with
  | true => exact ⟨.normal, s.tried, s.self, rfl, hsearched.1, nofun, hsearched.2⟩
  | false =>
      obtain ⟨bound, t, hloop, hsearched⟩ := search_ends (second_searching hrange hsearched.1 hsearched.2)
      change ∃ status tried next, (bindLoop (maxPort.toNat + 2) binds { s with port := s.self.minPort } >>= _) = _ ∧ _
      rw [hloop, Run.ok_bind]
      cases bound with
      | true => exact ⟨.normal, t.tried, t.self, rfl, hsearched.1, nofun, hsearched.2⟩
      | false =>
          obtain ⟨ht, hpast⟩ := hsearched
          have hle := UInt16.le_iff_toNat_le.mp hrange
          refine ⟨.error, t.tried, _, rfl, ht.tried, fun _ port hport => ?_, ht.low, ht.high, fun _ => ?_⟩
          · exact ht.refused port hport.1 (UInt16.lt_of_le_of_lt hport.2 hpast)
          · dsimp only
            rw [ht.low]
            omega

/-- A port below the range was tried, or is tried next, or none is bound
before the counter wraps. -/
def Leaves (minPort : UInt16) (binds : Nat → Bool) (s : Search) : Prop :=
  (∃ port ∈ s.tried, port < minPort) ∨ s.port < minPort ∨
    ∀ k, s.port.toNat + k ≤ 65535 → binds (s.tried.length + k) = false

theorem leaves_next (hmin : 0 < minPort) (h : Leaves minPort binds s) : Leaves minPort binds (refusedAt s) := by
  rcases h with ⟨port, hmem, hlt⟩ | hlt | hnone
  · exact .inl ⟨port, List.mem_append_left _ hmem, hlt⟩
  · exact .inl ⟨s.port, List.mem_append_right _ (List.mem_singleton_self _), hlt⟩
  · by_cases hport : s.port.toNat < 65535
    · refine .inr (.inr fun k hk => ?_)
      change (s.port + 1).toNat + k ≤ 65535 at hk
      rw [toNat_next hport] at hk
      have hbinds := hnone (k + 1) (by omega)
      change binds ((s.tried ++ [s.port]).length + k) = false
      rwa [List.length_append, List.length_singleton, Nat.add_assoc, Nat.add_comm 1 k]
    · -- the counter wraps
      have htop := s.port.toNat_lt
      have hlast : s.port = 65535 := UInt16.toNat_inj.mp (show s.port.toNat = 65535 by omega)
      refine .inr (.inl ?_)
      change s.port + 1 < minPort
      rw [hlast]
      exact hmin

theorem leaves_bound (hbinds : binds s.tried.length = true) (h : Leaves minPort binds s) :
    ∃ port ∈ (boundAt s).tried, port < minPort := by
  rcases h with ⟨port, hmem, hlt⟩ | hlt | hnone
  · exact ⟨port, List.mem_append_left _ hmem, hlt⟩
  · exact ⟨s.port, List.mem_append_right _ (List.mem_singleton_self _), hlt⟩
  · have hfalse := hnone 0 (Nat.le_of_lt_succ s.port.toNat_lt)
    rw [Nat.add_zero, hbinds] at hfalse
    cases hfalse

/-- A loop up to the last port of all ends only with a port bound. -/
theorem leaves_loop (hmin : 0 < minPort) (hmax : s.self.maxPort = 65535) (h : Leaves minPort binds s)
    (hloop : bindLoop fuel binds s = .ok (bound, t)) : bound = true ∧ ∃ port ∈ t.tried, port < minPort := by
  have hbody (s : Search) (hs : s.self.maxPort = 65535 ∧ Leaves minPort binds s) :
      ∃ r t, bindRound binds s = .ok (r, t) ∧
        Run.Round (fun t => (t.self.maxPort = 65535 ∧ Leaves minPort binds t) ∧ (False → t.port.toNat < s.port.toNat))
          (fun bound t => bound = true ∧ ∃ port ∈ t.tried, port < minPort) r t := by
    have hport : s.port ≤ s.self.maxPort := by
      rw [hs.1]
      exact UInt16.le_iff_toNat_le.mpr (Nat.le_of_lt_succ s.port.toNat_lt)
    cases hbinds : binds s.tried.length with
    | true => exact ⟨some true, boundAt s, bindRound_bound hport hbinds, rfl, leaves_bound hbinds hs.2⟩
    | false => exact ⟨none, refusedAt s, bindRound_refused hport hbinds, ⟨hs.1, leaves_next hmin hs.2⟩, False.elim⟩
  rcases Run.loop_rule False (fun t : Search => t.port.toNat) hbody fuel ⟨hmax, h⟩ with
    ⟨herr, -⟩ | ⟨bound', t', hok, hpost⟩
  · rw [bindLoop, herr] at hloop
    cases hloop
  · rw [bindLoop, hok] at hloop
    cases hloop
    exact hpost

/-- A call that comes back without room for it has left the range. -/
theorem bind_leaves (hmin : 0 < minPort) (hrange : minPort ≤ maxPort) (hready : Ready minPort maxPort self)
    (hbounded : ¬Bounded binds self) (hbind : zSockaddrInetRangeBind fuel binds self = .ok (status, tried, next)) :
    ∃ port ∈ tried, port < minPort := by
  rw [Bounded, not_or, not_and_or] at hbounded
  obtain ⟨hmax, hnone⟩ := hbounded
  have hlast : self.maxPort = 65535 :=
    UInt16.le_antisymm (UInt16.le_iff_toNat_le.mpr (Nat.le_of_lt_succ self.maxPort.toNat_lt)) (UInt16.not_lt.mp hmax)
  have hleaves : Leaves minPort binds ⟨self, self.lastPort, []⟩ := by
    refine .inr (hnone.imp (fun h => hready.low ▸ UInt16.not_le.mp h) fun h k hk => ?_)
    rw [List.length_nil, Nat.zero_add]
    exact Bool.eq_false_iff.mpr fun hbinds => h ⟨k, hk, hbinds⟩
  rw [zSockaddrInetRangeBind, if_neg (hready.valid hrange)] at hbind
  obtain ⟨⟨bound, s⟩, hloop, hrest⟩ := Run.bind_ok hbind
  obtain ⟨rfl, hport⟩ := leaves_loop hmin hlast hleaves hloop
  cases hrest
  exact hport

/-- How much fuel a call is given does not matter once it comes back. -/
theorem loop_unique {m n : Nat} {p q : Bool × Search} (hm : bindLoop m binds s = .ok p)
    (hn : bindLoop n binds s = .ok q) : p = q := by
  obtain ⟨hbound, hsearch⟩ :=
    Ends.unique ((ends_iff_loop Halt.endless).mpr ⟨m, hm⟩) ((ends_iff_loop Halt.endless).mpr ⟨n, hn⟩)
  exact Prod.ext hbound hsearch

theorem bind_unique {m n : Nat} {p q : GIOStatus × List UInt16 × ZSockAddrInetRange}
    (hm : zSockaddrInetRangeBind m binds self = .ok p) (hn : zSockaddrInetRangeBind n binds self = .ok q) : p = q := by
  rw [zSockaddrInetRangeBind] at hm hn
  split at hm
  · rename_i hinvalid
    rw [if_pos hinvalid] at hn
    exact Except.ok.inj (hm.symm.trans hn)
  · rename_i hvalid
    rw [if_neg hvalid] at hn
    obtain ⟨⟨bound, s⟩, hloop, hm⟩ := Run.bind_ok hm
    obtain ⟨⟨bound', s'⟩, hloop', hn⟩ := Run.bind_ok hn
    cases loop_unique hloop hloop'
    cases bound with
    | true => exact Except.ok.inj (hm.symm.trans hn)
    | false =>
        obtain ⟨⟨bound, t⟩, hloop, hm⟩ := Run.bind_ok hm
        obtain ⟨⟨bound', t'⟩, hloop', hn⟩ := Run.bind_ok hn
        cases loop_unique hloop hloop'
        cases bound with
        | true => exact Except.ok.inj (hm.symm.trans hn)
        | false => exact Except.ok.inj (hm.symm.trans hn)

/-! A run of calls -/

/-- The port that a remainder gives lies in the range. -/
theorem start_between (hlt : minPort < maxPort) (rand : Nat) :
    minPort.toNat ≤ (UInt16.ofNat (rand % (maxPort.toNat - minPort.toNat)) + minPort).toNat ∧
      (UInt16.ofNat (rand % (maxPort.toNat - minPort.toNat)) + minPort).toNat ≤ maxPort.toNat + 1 := by
  have hpos := UInt16.lt_iff_toNat_lt.mp hlt
  have hmod := Nat.mod_lt rand (Nat.sub_pos_of_lt hpos)
  have htop := maxPort.toNat_lt
  rw [UInt16.toNat_add, UInt16.toNat_ofNat']
  omega

theorem newInaddr_ready (rand : Nat) (hrange : minPort ≤ maxPort) :
    Ready minPort maxPort (newInaddr rand minPort maxPort) := by
  refine ⟨rfl, rfl, fun _ => ?_⟩
  rw [newInaddr]
  dsimp only
  split
  · rename_i hlt
    exact start_between hlt rand
  · rename_i hnot
    have hle := UInt16.le_iff_toNat_le.mp hrange
    rw [if_pos (UInt16.le_antisymm (UInt16.not_lt.mp hnot) hrange)]
    exact ⟨Nat.le_refl _, Nat.le_succ_of_le hle⟩

theorem clone_ready (rand : Nat) (hrange : minPort ≤ maxPort) (hready : Ready minPort maxPort self) :
    Ready minPort maxPort (clone rand self) := by
  rw [clone, hready.low, hready.high]
  dsimp only
  split
  · rename_i hlt
    exact ⟨rfl, rfl, fun _ => start_between hlt (UInt16.ofNat rand).toNat⟩
  · rename_i hnot
    have hle := UInt16.le_iff_toNat_le.mp hrange
    rw [if_pos (UInt16.le_antisymm (UInt16.not_lt.mp hnot) hrange)]
    exact ⟨rfl, rfl, fun _ => ⟨Nat.le_refl _, Nat.le_succ_of_le hle⟩⟩

theorem stays_iff_bounded (hmin : 0 < minPort) (hrange : minPort ≤ maxPort) (calls : List Call)
    (hready : Ready minPort maxPort self) :
    StaysInRange minPort maxPort calls self ↔ EachBounded calls self := by
  induction calls generalizing self with
  | nil => exact Iff.rfl
  | cons call calls ih =>
      cases call with
      | clone rand => exact ih (clone_ready rand hrange hready)
      | bind binds =>
          constructor
          · rintro ⟨fuel, status, tried, next, hbind, htried, -, hrest⟩
            have hbounded : Bounded binds self := by
              by_contra hnot
              obtain ⟨port, hmem, hlt⟩ := bind_leaves hmin hrange hready hnot hbind
              exact UInt16.not_lt.mpr (htried port hmem).1 hlt
            obtain ⟨status', tried', next', hbind', -, -, hnext⟩ := bind_stays hrange hready hbounded
            cases bind_unique hbind hbind'
            refine ⟨hbounded, fun fuel status tried next' hbind' => ?_⟩
            cases bind_unique hbind hbind'
            exact (ih hnext).mp hrest
          · rintro ⟨hbounded, hrest⟩
            obtain ⟨status, tried, next, hbind, htried, hrefused, hnext⟩ := bind_stays hrange hready hbounded
            exact ⟨maxPort.toNat + 2, status, tried, next, hbind, htried, hrefused,
              (ih hnext).mpr (hrest _ status tried next hbind)⟩

/-- A range below the last port of all has room for every call. -/
theorem stays_below (hrange : minPort ≤ maxPort) (hmax : maxPort < 65535) (calls : List Call)
    (hready : Ready minPort maxPort self) : StaysInRange minPort maxPort calls self := by
  induction calls generalizing self with
  | nil => trivial
  | cons call calls ih =>
      cases call with
      | clone rand => exact ih (clone_ready rand hrange hready)
      | bind binds =>
          obtain ⟨status, tried, next, hbind, htried, hrefused, hnext⟩ :=
            bind_stays hrange hready (.inl (hready.high ▸ hmax))
          exact ⟨maxPort.toNat + 2, status, tried, next, hbind, htried, hrefused, ih hnext⟩

theorem not_bounded_refused (hmax : ¬self.maxPort < 65535) : ¬Bounded (fun _ => false) self := by
  rintro (hlt | ⟨-, k, -, hbinds⟩)
  · exact hmax hlt
  · cases hbinds

/-- The calls of a run stay in the range if and only if there is room for each
of them, and all runs do if and only if the range ends below the last port. -/
theorem stays_in_range_iff (minPort maxPort : UInt16) (hmin : 0 < minPort) (hrange : minPort ≤ maxPort) :
    (∀ rand calls, StaysInRange minPort maxPort calls (newInaddr rand minPort maxPort) ↔
        EachBounded calls (newInaddr rand minPort maxPort)) ∧
      ((∀ rand calls, StaysInRange minPort maxPort calls (newInaddr rand minPort maxPort)) ↔ maxPort < 65535) := by
  refine ⟨fun rand calls => stays_iff_bounded hmin hrange calls (newInaddr_ready rand hrange), fun h => ?_,
    fun hmax rand calls => stays_below hrange hmax calls (newInaddr_ready rand hrange)⟩
  by_contra hmax
  have hready := newInaddr_ready 0 hrange
  have hbounded := (stays_iff_bounded hmin hrange [.bind fun _ => false] hready).mp (h 0 _)
  exact not_bounded_refused (hready.high ▸ hmax) hbounded.1

theorem stays_in_range_iff_two :
    (∀ rand calls, StaysInRange 1024 1025 calls (newInaddr rand 1024 1025) ↔
        EachBounded calls (newInaddr rand 1024 1025)) ∧
      ((∀ rand calls, StaysInRange 1024 1025 calls (newInaddr rand 1024 1025)) ↔ (1025 : UInt16) < 65535) :=
  stays_in_range_iff 1024 1025 (by decide) (by decide)

/-- The search for a port up to 65535 does not end where all are taken. -/
theorem not_stays_in_range :
    ¬∀ minPort maxPort, 0 < minPort → minPort ≤ maxPort →
      ∀ rand calls, StaysInRange minPort maxPort calls (newInaddr rand minPort maxPort) := by
  intro h
  have hready := @newInaddr_ready 65535 65535 0 (UInt16.le_refl 65535)
  have hstays := h 65535 65535 (by decide) (UInt16.le_refl 65535) 0 [.bind fun _ => false]
  have hbounded := (stays_iff_bounded (by decide) (UInt16.le_refl 65535) _ hready).mp hstays
  exact not_bounded_refused (by decide) hbounded.1

end Libzorpll.InetRange
