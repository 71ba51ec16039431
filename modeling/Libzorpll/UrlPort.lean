import Libzorpll.UrlDecode
import Libzorpll.UrlBuild

/-! Which port fields z_url_parse takes. -/

namespace Libzorpll.UrlPort

open CString UrlParse UrlReturns UrlDecode UrlBuild

/-- The forms with a port: the parts that are decoded, and the port. -/
inductive Form : List UInt8 → List (List UInt8) → List UInt8 → Prop
  | host {host port : List UInt8} (hhost : Plain isSep host) (hport : Plain isSep port) :
      Form (host ++ colon :: port) [host] port
  | userHost {user host port : List UInt8} (huser : Plain isSep user) (hhost : Plain isSep host)
      (hport : Plain isSep port) : Form (user ++ atSign :: (host ++ colon :: port)) [user, host] port
  | userPasswdHost {user passwd host port : List UInt8} (huser : Plain isSep user)
      (hpasswd : Plain isSep passwd) (hhost : Plain isSep host) (hport : Plain isSep port) :
      Form (user ++ colon :: (passwd ++ atSign :: (host ++ colon :: port))) [user, passwd, host] port

/-- A URL of one of these forms, with or without a file. -/
def HasPort (s : List UInt8) (ws : List (List UInt8)) (port : List UInt8) : Prop :=
  ∃ scheme a file, colon ∉ scheme ∧ Form a ws port ∧ (file = [] ∨ file.head? = some slash) ∧
    s = scheme ++ colon :: slash :: slash :: (a ++ file)

/-- A number that a port can have, in decimal digits. -/
def Proper (port : List UInt8) : Prop :=
  port ≠ [] ∧ (∀ b ∈ port, isDigit b = true) ∧ decimalValue 0 port ≤ 65535

def ChecksPort (s : List UInt8) : Prop :=
  ∀ ws port, HasPort s ws port → ∀ url, zUrlParse (terminated s) = .ok url →
    Proper port ∧ url.port = decimalValue 0 port

/-- A part that is decoded with no error, as far as its length is counted. -/
def Decodable (w : List UInt8) : Prop :=
  0 ≤ gint w.length ∧ (decode (w.take (gint w.length).toNat)).isSome = true

theorem gint_le (n : Nat) : gint n ≤ n := by
  rw [gint, Int.bmod_def]
  split
  · omega
  · omega

theorem assignUrlDecode_iff (w : List UInt8) (q : Ptr) :
    (∃ bytes, assignUrlDecode (w ++ q) (gint w.length) = .ok bytes) ↔ Decodable w := by
  have hle := gint_le w.length
  by_cases hneg : gint w.length < 0
  · rw [assignUrlDecode, if_pos hneg]
    refine iff_of_false (by rintro ⟨_, ⟨⟩⟩) fun h => ?_
    exact absurd h.1 (Int.not_le.mpr hneg)
  · have hlen : (gint w.length).toNat ≤ w.length := by omega
    have hall : (gint w.length).toNat ≤ (w ++ q).length := by
      rw [List.length_append]
      omega
    have hcast : ((gint w.length).toNat : Int) = gint w.length := Int.toNat_of_nonneg (Int.not_lt.mp hneg)
    have hiff := decodeLoop_ok_iff hall (Nat.lt_succ_self _)
    rw [hcast, List.take_append_of_le_length hlen] at hiff
    rw [assignUrlDecode, if_neg hneg, Decodable, Option.isSome_iff_exists]
    constructor
    · rintro ⟨bytes, hbytes⟩
      exact ⟨Int.not_lt.mp hneg, bytes, (hiff bytes).mp hbytes⟩
    · rintro ⟨-, bytes, hbytes⟩
      exact ⟨bytes, (hiff bytes).mpr hbytes⟩

theorem reads_ok {α : Type} {o : Option α} {a : α} (h : reads o = .ok a) : o = some a := by
  cases o with
  | none => cases h
  | some b => exact congrArg some (Except.ok.inj h)

section Switch

variable {part sep : Cuts} {k : Nat}

theorem decodePart_iff {w : List UInt8} {q : Ptr} (hpart : part k = some (w ++ q)) (hsep : sep k = some q) :
    (∃ bytes, decodePart part sep k = .ok bytes) ↔ Decodable w := by
  have heq : decodePart part sep k = assignUrlDecode (w ++ q) (gint w.length) := by
    rw [decodePart, written, written, hpart, hsep]
    change assignUrlDecode _ (gint (distance _ _)) = _
    rw [distance_append]
  rw [heq, assignUrlDecode_iff]

theorem behind_of_end {c : UInt8} (hc : c = 0 ∨ c = slash) : Behind c := by
  rcases hc with rfl | rfl
  · exact ⟨rfl, rfl, by decide⟩
  · exact ⟨rfl, rfl, by decide⟩

theorem parsePort_iff {port : List UInt8} {c : UInt8} (hc : c = 0 ∨ c = slash) {rest : Ptr}
    (hpart : part k = some (port ++ c :: rest)) (hsep : sep k = some (c :: rest)) :
    (∃ n, parsePort part sep k = .ok n) ↔ Taken port := by
  have heq : parsePort part sep k = reads (strtoul (port ++ c :: rest)) >>= fun r =>
      if r.2.length ≠ (c :: rest).length then .error (.failed "Error parsing port number")
      else .ok (r.1 % 2 ^ 32) := by
    rw [parsePort, written, written, hpart, hsep]
    rfl
  rw [heq, ← strtoul_takes_iff (behind_of_end hc) rest]
  constructor
  · rintro ⟨n, h⟩
    obtain ⟨⟨m, stop⟩, hcall, hanswer⟩ := Run.bind_ok h
    refine ⟨m, stop, reads_ok hcall, ?_⟩
    by_contra hlen
    have hfailed : Except.error _ = Except.ok n := (if_pos hlen).symm.trans hanswer
    cases hfailed
  · rintro ⟨n, stop, hcall, hlen⟩
    rw [hcall]
    exact ⟨n % 2 ^ 32, if_neg (not_not.mpr hlen)⟩

theorem parsePort_proper {port : List UInt8} (h : Proper port) {c : UInt8} (hc : c = 0 ∨ c = slash) {rest : Ptr}
    (hpart : part k = some (port ++ c :: rest)) (hsep : sep k = some (c :: rest)) :
    parsePort part sep k = .ok (decimalValue 0 port) := by
  obtain ⟨hsome, hdigits, hvalue⟩ := h
  have hcall := strtoul_digits hsome hdigits (by omega) (not_digit_of_tail hc) rest
  rw [parsePort, written, written, hpart, hsep]
  change (reads (strtoul _) >>= _) = _
  rw [hcall]
  change (if (c :: rest).length ≠ (c :: rest).length then _ else Except.ok (decimalValue 0 port % 2 ^ 32)) = _
  rw [if_neg (not_not.mpr rfl), Nat.mod_eq_of_lt (by omega)]

variable (url : ZURL) {p q r : Ptr}

theorem switch_one (h0 : sep 0 = some (colon :: p)) :
    switchParts url 1 part sep = decodePart part sep 0 >>= fun host =>
      parsePort part sep 1 >>= fun port => .ok { url with host := host, port := port } := by
  rw [switchParts, sepsAre_cons h0, sepsAre]
  rfl

theorem switch_two (h0 : sep 0 = some (atSign :: p)) (h1 : sep 1 = some (colon :: q)) :
    switchParts url 2 part sep = decodePart part sep 0 >>= fun user =>
      decodePart part sep 1 >>= fun host =>
        parsePort part sep 2 >>= fun port => .ok { url with user := user, host := host, port := port } := by
  rw [switchParts, sepsAre_cons h0, sepsAre_cons h1, sepsAre]
  rfl

theorem switch_three (h0 : sep 0 = some (colon :: p)) (h1 : sep 1 = some (atSign :: q))
    (h2 : sep 2 = some (colon :: r)) :
    switchParts url 3 part sep = decodePart part sep 0 >>= fun user =>
      decodePart part sep 1 >>= fun passwd =>
        decodePart part sep 2 >>= fun host =>
          parsePort part sep 3 >>= fun port =>
            .ok { url with user := user, passwd := passwd, host := host, port := port } := by
  rw [switchParts, sepsAre_cons h0, sepsAre_cons h1, sepsAre_cons h2, sepsAre]
  rfl

end Switch

/-- What the switch makes of the parts of a form. -/
structure Switched (ws : List (List UInt8)) (port : List UInt8) (c : UInt8) (tl : Ptr) (url : ZURL)
    (part sep : Cuts) : Prop where
  start : part ws.length = some (port ++ c :: tl)
  stop : sep ws.length = some (c :: tl)
  accepts : (∃ url', switchParts url ws.length part sep = .ok url') ↔ (∀ w ∈ ws, Decodable w) ∧ Taken port
  port : ∀ url', switchParts url ws.length part sep = .ok url' → parsePort part sep ws.length = .ok url'.port

theorem Form.switched {a : List UInt8} {ws : List (List UInt8)} {port : List UInt8} (h : Form a ws port)
    {c : UInt8} (hc : c = 0 ∨ c = slash) (tl : Ptr) (url : ZURL) :
    ∃ part sep, splitLoop 4 0 (a ++ c :: tl) (fun _ => none) (fun _ => none) =
      .ok (ws.length, c :: tl, part, sep) ∧ Switched ws port c tl url part sep := by
  have hlast : ∀ {part sep : Cuts} {k : Nat} (f : Nat → ZURL), part k = some (port ++ c :: tl) →
      sep k = some (c :: tl) →
      ((∃ url', (parsePort part sep k >>= fun n => .ok (f n)) = .ok url') ↔ Taken port) := by
    intro part sep k f hpart hsep
    have hport := Run.exists_bind_ok_iff (parsePort_iff hc hpart hsep)
      (f := fun n => (.ok (f n) : Except Stop ZURL)) fun n _ => iff_true_intro ⟨f n, rfl⟩
    rwa [and_true] at hport
  cases h with
  | @host host port hhost hport =>
      rw [List.append_assoc, List.cons_append, splitLoop_next hhost rfl (by decide) (by decide),
        splitLoop_last hport hc]
      refine ⟨_, _, rfl, rfl, rfl, ?_, ?_⟩
      · rw [List.length_singleton, switch_one _ rfl, List.forall_mem_singleton]
        refine Run.exists_bind_ok_iff (decodePart_iff rfl rfl) fun host' _ => ?_
        exact hlast _ rfl rfl
      · intro url' h
        rw [List.length_singleton, switch_one _ rfl] at h
        obtain ⟨host', -, h⟩ := Run.bind_ok h
        obtain ⟨port', hport', h⟩ := Run.bind_ok h
        cases h
        exact hport'
  | @userHost user host port huser hhost hport =>
      rw [List.append_assoc, List.cons_append, List.append_assoc, List.cons_append,
        splitLoop_next huser rfl (by decide) (by decide), splitLoop_next hhost rfl (by decide) (by decide),
        splitLoop_last hport hc]
      refine ⟨_, _, rfl, rfl, rfl, ?_, ?_⟩
      · rw [List.length_cons, List.length_singleton, switch_two _ rfl rfl, List.forall_mem_cons,
          List.forall_mem_singleton, and_assoc]
        refine Run.exists_bind_ok_iff (decodePart_iff rfl rfl) fun user' _ => ?_
        refine Run.exists_bind_ok_iff (decodePart_iff rfl rfl) fun host' _ => ?_
        exact hlast _ rfl rfl
      · intro url' h
        rw [List.length_cons, List.length_singleton, switch_two _ rfl rfl] at h
        obtain ⟨user', -, h⟩ := Run.bind_ok h
        obtain ⟨host', -, h⟩ := Run.bind_ok h
        obtain ⟨port', hport', h⟩ := Run.bind_ok h
        cases h
        exact hport'
  | @userPasswdHost user passwd host port huser hpasswd hhost hport =>
      rw [List.append_assoc, List.cons_append, List.append_assoc, List.cons_append, List.append_assoc,
        List.cons_append, splitLoop_next huser rfl (by decide) (by decide),
        splitLoop_next hpasswd rfl (by decide) (by decide), splitLoop_next hhost rfl (by decide) (by decide),
        splitLoop_last hport hc]
      refine ⟨_, _, rfl, rfl, rfl, ?_, ?_⟩
      · rw [List.length_cons, List.length_cons, List.length_singleton, switch_three _ rfl rfl rfl,
          List.forall_mem_cons, List.forall_mem_cons, List.forall_mem_singleton, and_assoc, and_assoc]
        refine Run.exists_bind_ok_iff (decodePart_iff rfl rfl) fun user' _ => ?_
        refine Run.exists_bind_ok_iff (decodePart_iff rfl rfl) fun passwd' _ => ?_
        refine Run.exists_bind_ok_iff (decodePart_iff rfl rfl) fun host' _ => ?_
        exact hlast _ rfl rfl
      · intro url' h
        rw [List.length_cons, List.length_cons, List.length_singleton, switch_three _ rfl rfl rfl] at h
        obtain ⟨user', -, h⟩ := Run.bind_ok h
        obtain ⟨passwd', -, h⟩ := Run.bind_ok h
        obtain ⟨host', -, h⟩ := Run.bind_ok h
        obtain ⟨port', hport', h⟩ := Run.bind_ok h
        cases h
        exact hport'

/-- The file is no reason to refuse a URL whose parts end at a slash or at the
end, and no part of it changes the port. -/
theorem assignFile_ok {file : List UInt8} (h0 : 0 ∉ file) (hfile : file = [] ∨ file.head? = some slash) :
    ∃ c tl, terminated file = c :: tl ∧ (c = 0 ∨ c = slash) ∧
      ∀ url, ∃ url', assignFile url (c :: tl) = .ok url' ∧ url'.port = url.port := by
  rcases hfile with rfl | hhead
  · exact ⟨0, [], rfl, .inl rfl, fun url => ⟨_, rfl, rfl⟩⟩
  · cases file with
    | nil => cases hhead
    | cons c file =>
        obtain rfl := Option.some.inj hhead
        refine ⟨slash, file ++ [0], rfl, .inr rfl, fun url => ⟨{ url with file := slash :: file }, ?_, rfl⟩⟩
        have hstring := string_terminated h0
        change (reads (string (terminated (slash :: file))) >>= _) = _
        rw [hstring]
        rfl

/-- Of a URL with a port the parts have to be decodable and the port has to be
taken, and the port is what parsePort reads. -/
theorem parse_port {s : List UInt8} (h0 : 0 ∉ s) {ws : List (List UInt8)} {port : List UInt8}
    (h : HasPort s ws port) :
    ((∃ url, zUrlParse (terminated s) = .ok url) ↔ (∀ w ∈ ws, Decodable w) ∧ Taken port) ∧
      (Proper port → ∀ url, zUrlParse (terminated s) = .ok url → url.port = decimalValue 0 port) := by
  obtain ⟨scheme, a, file, hcolon, hform, hfile, rfl⟩ := h
  have hscheme : 0 ∉ scheme := fun hin => h0 (List.mem_append_left _ hin)
  have htail : 0 ∉ file := fun hin => h0 (by simp [hin])
  obtain ⟨c, tl, hend, hc, hassign⟩ := assignFile_ok htail hfile
  obtain ⟨part, sep, hsplit, hswitch⟩ := hform.switched hc tl { scheme := scheme }
  have hparse : zUrlParse (terminated (scheme ++ colon :: slash :: slash :: (a ++ file))) =
      switchParts { scheme := scheme } ws.length part sep >>= fun url => assignFile url (c :: tl) := by
    rw [zUrlParse, terminated_append, terminated, List.cons_append, List.cons_append, List.cons_append,
      ← terminated, terminated_append, hend, parseScheme_ok hscheme hcolon]
    change (splitLoop 4 0 _ _ _ >>= _) = _
    rw [hsplit]
    rfl
  rw [hparse]
  constructor
  · have hiff := Run.exists_bind_ok_iff hswitch.accepts (f := fun url => assignFile url (c :: tl))
      fun url _ => iff_true_intro ((hassign url).imp fun url' h => h.1)
    rwa [and_true] at hiff
  · intro hproper url hurl
    obtain ⟨url', hurl', hfile⟩ := Run.bind_ok hurl
    obtain ⟨last, hlast, hsame⟩ := hassign url'
    rw [hlast] at hfile
    cases hfile
    have hport := hswitch.port url' hurl'
    rw [parsePort_proper hproper hc hswitch.start hswitch.stop] at hport
    rw [hsame, ← Except.ok.inj hport]

/-- Only numbers of ports are accepted just if there is no text that strtoul
takes without being one, in a URL whose other parts are right. -/
theorem port_checked_iff {s : List UInt8} (h0 : 0 ∉ s) :
    ChecksPort s ↔ ∀ ws port, HasPort s ws port → (∀ w ∈ ws, Decodable w) → Taken port → Proper port := by
  constructor
  · intro hchecks ws port h hdecodable htaken
    obtain ⟨url, hurl⟩ := (parse_port h0 h).1.mpr ⟨hdecodable, htaken⟩
    exact (hchecks ws port h url hurl).1
  · intro hcond ws port h url hurl
    obtain ⟨hiff, hport⟩ := parse_port h0 h
    obtain ⟨hdecodable, htaken⟩ := hiff.mp ⟨url, hurl⟩
    have hproper := hcond ws port h hdecodable htaken
    exact ⟨hproper, hport hproper url hurl⟩

/-- "a://b:80" -/
theorem port_checked_iff_digits : ChecksPort [97, 58, 47, 47, 98, 58, 56, 48] := by
  apply (port_checked_iff (by decide)).mpr
  rintro ws port ⟨scheme, a, file, hcolon, hform, hfile, heq⟩ - -
  have ha : colon ∉ [(97 : UInt8)] := by decide
  have hrest : a ++ file = [98, 58, 56, 48] := scheme_unique ha hcolon heq
  have hat : atSign ∉ a := by
    intro hin
    have hmem : atSign ∈ a ++ file := List.mem_append_left _ hin
    rw [hrest] at hmem
    exact absurd hmem (by decide)
  have hnoslash : file = [] := by
    rcases hfile with hfile | hhead
    · exact hfile
    · have hmem : slash ∈ a ++ file := List.mem_append_right _ (List.mem_of_mem_head? hhead)
      rw [hrest] at hmem
      exact absurd hmem (by decide)
  rw [hnoslash, List.append_nil] at hrest
  cases hform with
  | @host host port hhost hport =>
      rcases host with _ | ⟨b, _ | ⟨c, host⟩⟩
      · exact absurd (List.cons.inj hrest).1 (by decide)
      · obtain rfl : port = [56, 48] := (List.cons.inj (List.cons.inj hrest).2).2
        refine ⟨nofun, ?_, by decide⟩
        simp only [List.mem_cons, List.not_mem_nil, or_false, forall_eq_or_imp, forall_eq]
        decide
      · obtain rfl : c = 58 := (List.cons.inj (List.cons.inj hrest).2).1
        exact absurd (hhost 58 (by simp)).2 (by decide)
  | userHost huser hhost hport => exact absurd (by simp) hat
  | userPasswdHost huser hpasswd hhost hport => exact absurd (by simp) hat

/-- "a://b:70000", "a://b:", "a://b: +8" and "a://b:-1" -/
theorem port_not_checked :
    (¬∀ s : List UInt8, 0 ∉ s → ChecksPort s) ∧
    (zUrlParse (terminated [97, 58, 47, 47, 98, 58])).map ZURL.port = .ok 0 ∧
    (zUrlParse (terminated [97, 58, 47, 47, 98, 58, 32, 43, 56])).map ZURL.port = .ok 8 ∧
    (zUrlParse (terminated [97, 58, 47, 47, 98, 58, 45, 49])).map ZURL.port = .ok 4294967295 := by
  refine ⟨?_, rfl, rfl, rfl⟩
  intro h
  have hform : HasPort [97, 58, 47, 47, 98, 58, 55, 48, 48, 48, 48] [[98]] [55, 48, 48, 48, 48] := by
    refine ⟨[97], [98, 58, 55, 48, 48, 48, 48], [], by decide, @Form.host [98] _ ?_ ?_, .inl rfl, rfl⟩
    · simp only [Plain, List.mem_cons, List.not_mem_nil, or_false, forall_eq]
      decide
    · simp only [Plain, List.mem_cons, List.not_mem_nil, or_false, forall_eq_or_imp, forall_eq]
      decide
  obtain ⟨⟨-, -, hvalue⟩, -⟩ := h _ (by decide) _ _ hform _ rfl
  exact absurd hvalue (by decide)

end Libzorpll.UrlPort
