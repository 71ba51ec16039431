import Mathlib.Logic.Basic

/-! The verification callback of SSL sessions and its revocation lists. -/

namespace Libzorpll.SslVerify

/-- The functions of OpenSSL that are used: the names, key and serial number
of a certificate, the lookup of a list in a store by the name of its issuer,
with its return code, and the comparisons. -/
structure OpenSsl (X509 Name Pkey Serial Time Crl Store : Type) where
  subjectName : X509 → Name
  issuerName : X509 → Name
  pubkey : X509 → Pkey
  serialNumber : X509 → Serial
  storeGetBySubject : Store → Name → Int × Option Crl
  crlVerify : Crl → Pkey → Int
  nextUpdate : Crl → Time
  cmpCurrentTime : Time → Int
  revoked : Crl → List Serial
  integerCmp : Serial → Serial → Int

/-! The verify types and the errors of certificates -/

def verifyOptional : Int := 1
def verifyRequiredUntrusted : Int := 2

def errUnableToGetIssuerCert : Int := 2
def errCrlSignatureFailure : Int := 8
def errCrlHasExpired : Int := 12
def errInCrlNextUpdateField : Int := 16
def errDepthZeroSelfSignedCert : Int := 18
def errSelfSignedCertInChain : Int := 19
def errUnableToGetIssuerCertLocally : Int := 20
def errUnableToVerifyLeafSignature : Int := 21
def errCertUntrusted : Int := 27

structure Session (Store : Type) where
  verifyType : Int
  verifyDepth : Int
  crlStore : Option Store

/-- What the callback sees of an X509_STORE_CTX. -/
structure StoreCtx (X509 : Type) where
  currentCert : X509
  error : Int
  errorDepth : Int

variable {X509 Name Pkey Serial Time Crl Store : Type}

section Model

variable (ssl : OpenSsl X509 Name Pkey Serial Time Crl Store)

/-- A list counts where the lookup says so. -/
def lookupCrl (crlStore : Store) (name : Name) : Option Crl :=
  match ssl.storeGetBySubject crlStore name with
  | (rc, crl) => if 0 < rc then crl else none

/-- The loop over the revoked serial numbers. -/
def revokedLoop (xs : X509) : List Serial → Bool
  | [] => false
  | serial :: rest => if ssl.integerCmp serial (ssl.serialNumber xs) = 0 then true else revokedLoop xs rest

/-- The error that the list of the certificate itself is given, if any. -/
def ownCrlError (xs : X509) (crl : Crl) : Option Int :=
  if ssl.crlVerify crl (ssl.pubkey xs) ≤ 0 then some errCrlSignatureFailure
  else
    let i := ssl.cmpCurrentTime (ssl.nextUpdate crl)
    if i = 0 then some errInCrlNextUpdateField
    else if i < 0 then some errCrlHasExpired
    else none

def verifyCrl (ok : Int) (xs : X509) (ctx : StoreCtx X509) (crlStore : Store) : Int × StoreCtx X509 :=
  match (lookupCrl ssl crlStore (ssl.subjectName xs)).bind (ownCrlError ssl xs) with
  | some error => (0, { ctx with error := error })
  | none =>
      match lookupCrl ssl crlStore (ssl.issuerName xs) with
      | some crl => if revokedLoop ssl xs (ssl.revoked crl) then (0, ctx) else (ok, ctx)
      | none => (ok, ctx)

/-- The errors that are ignored where the certificate need not be trusted. -/
def overridden (verifyData : Session Store) (errnum : Int) : Bool :=
  (verifyData.verifyType == verifyRequiredUntrusted || verifyData.verifyType == verifyOptional) &&
    (errnum == errDepthZeroSelfSignedCert || errnum == errSelfSignedCertInChain ||
      errnum == errUnableToGetIssuerCertLocally || errnum == errUnableToGetIssuerCert ||
      errnum == errCertUntrusted || errnum == errUnableToVerifyLeafSignature)

def verifyCallback (verifyData : Session Store) (ok : Int) (ctx : StoreCtx X509) : Int × StoreCtx X509 :=
  let xs := ctx.currentCert
  let errdepth := ctx.errorDepth
  let forcedOk := overridden verifyData ctx.error
  let ok := if forcedOk then 1 else ok
  let (ok, ctx) :=
    match verifyData.crlStore with
    | some crlStore => if ok ≠ 0 then verifyCrl ssl ok xs ctx crlStore else (ok, ctx)
    | none => (ok, ctx)
  let ok :=
    if ok ≠ 0 ∧ verifyData.verifyDepth ≠ -1 ∧ verifyData.verifyDepth < errdepth then 0 else ok
  (if ok ≠ 0 ∨ forcedOk then 1 else 0, ctx)

end Model

/-! What the lists say -/

variable {ssl : OpenSsl X509 Name Pkey Serial Time Crl Store}

/-- The list of the certificate itself is not valid any more, or the one of
its issuer has its serial number. -/
def Revoked (ssl : OpenSsl X509 Name Pkey Serial Time Crl Store) (crlStore : Store) (xs : X509) : Prop :=
  (∃ crl, lookupCrl ssl crlStore (ssl.subjectName xs) = some crl ∧
    (ssl.crlVerify crl (ssl.pubkey xs) ≤ 0 ∨ ssl.cmpCurrentTime (ssl.nextUpdate crl) ≤ 0)) ∨
  ∃ crl, lookupCrl ssl crlStore (ssl.issuerName xs) = some crl ∧
    ∃ serial ∈ ssl.revoked crl, ssl.integerCmp serial (ssl.serialNumber xs) = 0

theorem revokedLoop_iff (xs : X509) (serials : List Serial) :
    revokedLoop ssl xs serials = true ↔
      ∃ serial ∈ serials, ssl.integerCmp serial (ssl.serialNumber xs) = 0 := by
  induction serials with
  | nil => simp [revokedLoop]
  | cons serial rest ih =>
      rw [revokedLoop]
      by_cases hsame : ssl.integerCmp serial (ssl.serialNumber xs) = 0
      · rw [if_pos hsame]
        exact ⟨fun _ => ⟨serial, List.mem_cons_self, hsame⟩, fun _ => rfl⟩
      · rw [if_neg hsame, ih]
        constructor
        · rintro ⟨other, hmem, hother⟩
          exact ⟨other, List.mem_cons_of_mem _ hmem, hother⟩
        · rintro ⟨other, hmem, hother⟩
          rcases List.mem_cons.mp hmem with rfl | hrest
          · exact absurd hother hsame
          · exact ⟨other, hrest, hother⟩

theorem ownCrlError_iff (xs : X509) (crl : Crl) :
    (∃ error, ownCrlError ssl xs crl = some error) ↔
      ssl.crlVerify crl (ssl.pubkey xs) ≤ 0 ∨ ssl.cmpCurrentTime (ssl.nextUpdate crl) ≤ 0 := by
  rw [ownCrlError]
  by_cases hsigned : ssl.crlVerify crl (ssl.pubkey xs) ≤ 0
  · rw [if_pos hsigned]
    exact ⟨fun _ => .inl hsigned, fun _ => ⟨_, rfl⟩⟩
  · rw [if_neg hsigned]
    by_cases hinvalid : ssl.cmpCurrentTime (ssl.nextUpdate crl) = 0
    · simp only [hinvalid, ↓reduceIte]
      exact ⟨fun _ => .inr (Int.le_refl 0), fun _ => ⟨_, rfl⟩⟩
    · by_cases hexpired : ssl.cmpCurrentTime (ssl.nextUpdate crl) < 0
      · simp only [hinvalid, hexpired, ↓reduceIte]
        exact ⟨fun _ => .inr (Int.le_of_lt hexpired), fun _ => ⟨_, rfl⟩⟩
      · simp only [hinvalid, hexpired, ↓reduceIte, reduceCtorEq, exists_false, false_iff]
        omega

theorem verifyCrl_iff {ok : Int} (hok : ok ≠ 0) (xs : X509) (ctx : StoreCtx X509) (crlStore : Store) :
    (verifyCrl ssl ok xs ctx crlStore).1 = 0 ↔ Revoked ssl crlStore xs := by
  rw [verifyCrl]
  cases hown : (lookupCrl ssl crlStore (ssl.subjectName xs)).bind (ownCrlError ssl xs) with
  | some error =>
      obtain ⟨crl, hcrl, herror⟩ := Option.bind_eq_some_iff.mp hown
      exact ⟨fun _ => .inl ⟨crl, hcrl, (ownCrlError_iff xs crl).mp ⟨error, herror⟩⟩, fun _ => rfl⟩
  | none =>
      have hvalid : ¬∃ crl, lookupCrl ssl crlStore (ssl.subjectName xs) = some crl ∧
          (ssl.crlVerify crl (ssl.pubkey xs) ≤ 0 ∨ ssl.cmpCurrentTime (ssl.nextUpdate crl) ≤ 0) := by
        rintro ⟨crl, hcrl, hinvalid⟩
        obtain ⟨error, herror⟩ := (ownCrlError_iff xs crl).mpr hinvalid
        rw [hcrl, Option.bind_some, herror] at hown
        cases hown
      rw [Revoked, or_iff_right hvalid]
      cases hissuer : lookupCrl ssl crlStore (ssl.issuerName xs) with
      | none =>
          refine ⟨fun hzero => absurd hzero hok, ?_⟩
          rintro ⟨crl, hcrl, -⟩
          cases hcrl
      | some crl =>
          have hloop := @revokedLoop_iff _ _ _ _ _ _ _ ssl xs (ssl.revoked crl)
          by_cases hlisted : revokedLoop ssl xs (ssl.revoked crl) = true
          · simp only [hlisted, ↓reduceIte]
            exact ⟨fun _ => ⟨crl, rfl, hloop.mp hlisted⟩, fun _ => trivial⟩
          · simp only [hlisted, ↓reduceIte, Bool.false_eq_true]
            refine ⟨fun hzero => absurd hzero hok, ?_⟩
            rintro ⟨other, hother, hserial⟩
            cases hother
            exact absurd (hloop.mpr hserial) hlisted

/-! The verdict -/

/-- What should be refused: an incoming error, a revoked certificate or a
chain that is too long; a depth of -1 is no limit. -/
def Refusable (ssl : OpenSsl X509 Name Pkey Serial Time Crl Store) (verifyData : Session Store) (ok : Int)
    (ctx : StoreCtx X509) : Prop :=
  ok = 0 ∨ (∃ crlStore, verifyData.crlStore = some crlStore ∧ Revoked ssl crlStore ctx.currentCert) ∨
    verifyData.verifyDepth ≠ -1 ∧ verifyData.verifyDepth < ctx.errorDepth

theorem depth_iff (ok : Int) (deep : Prop) [Decidable deep] :
    (if (if ok ≠ 0 ∧ deep then 0 else ok) ≠ 0 ∨ false = true then (1 : Int) else 0) = 0 ↔ ok = 0 ∨ deep := by
  by_cases hzero : ok = 0
  · simp [hzero]
  · by_cases hdeep : deep
    · simp [hzero, hdeep]
    · simp [hzero, hdeep]

theorem verifyCallback_iff (verifyData : Session Store) (ok : Int) (ctx : StoreCtx X509) :
    (verifyCallback ssl verifyData ok ctx).1 = 0 ↔
      overridden verifyData ctx.error = false ∧ Refusable ssl verifyData ok ctx := by
  cases hforced : overridden verifyData ctx.error with
  | true => simp [verifyCallback, hforced]
  | false =>
      rw [and_iff_right rfl, Refusable]
      cases hstore : verifyData.crlStore with
      | none =>
          have hanswer := depth_iff ok (verifyData.verifyDepth ≠ -1 ∧ verifyData.verifyDepth < ctx.errorDepth)
          simp only [verifyCallback, hforced, hstore, Bool.false_eq_true, ↓reduceIte, reduceCtorEq, false_and,
            exists_false, false_or] at hanswer ⊢
          exact hanswer
      | some crlStore =>
          have hsame : (∃ other, some crlStore = some other ∧ Revoked ssl other ctx.currentCert) ↔
              Revoked ssl crlStore ctx.currentCert := by
            constructor
            · rintro ⟨other, hother, hrevoked⟩
              cases hother
              exact hrevoked
            · exact fun hrevoked => ⟨crlStore, rfl, hrevoked⟩
          rw [hsame]
          by_cases hok : ok = 0
          · simp [verifyCallback, hforced, hstore, hok]
          · have hverdict := @verifyCrl_iff _ _ _ _ _ _ _ ssl ok hok ctx.currentCert ctx crlStore
            rw [or_iff_right hok, ← hverdict]
            rcases hcrl : verifyCrl ssl ok ctx.currentCert ctx crlStore with ⟨verdict, after⟩
            have hanswer := depth_iff verdict
              (verifyData.verifyDepth ≠ -1 ∧ verifyData.verifyDepth < ctx.errorDepth)
            simp only [verifyCallback, hforced, hstore, hcrl, hok, Bool.false_eq_true, ↓reduceIte, ne_eq,
              not_false_eq_true] at hanswer ⊢
            exact hanswer

/-- A certificate that is revoked, or behind a chain that is too long, is
refused just if its error is not one that is ignored. -/
theorem revoked_refused (ssl : OpenSsl X509 Name Pkey Serial Time Crl Store) (verifyData : Session Store)
    (ok : Int) (ctx : StoreCtx X509) :
    (∀ crlStore, (verifyCrl ssl 1 ctx.currentCert ctx crlStore).1 = 0 ↔ Revoked ssl crlStore ctx.currentCert) ∧
    (∀ crlStore, verifyData.crlStore = some crlStore →
      (verifyCrl ssl 1 ctx.currentCert ctx crlStore).1 = 0 →
      ((verifyCallback ssl verifyData ok ctx).1 = 0 ↔ overridden verifyData ctx.error = false)) ∧
    (verifyData.verifyDepth ≠ -1 → verifyData.verifyDepth < ctx.errorDepth →
      ((verifyCallback ssl verifyData ok ctx).1 = 0 ↔ overridden verifyData ctx.error = false)) := by
  refine ⟨fun crlStore => verifyCrl_iff (by decide) _ _ crlStore, fun crlStore hstore hcrl => ?_,
    fun hlimit hdeep => ?_⟩
  · rw [verifyCallback_iff, and_iff_left]
    exact .inr (.inl ⟨crlStore, hstore, (verifyCrl_iff (by decide) _ _ crlStore).mp hcrl⟩)
  · rw [verifyCallback_iff, and_iff_left]
    exact .inr (.inr ⟨hlimit, hdeep⟩)

/-- A store with one list, of the issuer 9, in which the serial number 7 is
revoked; a certificate is known by its serial number. -/
def oneRevoked : OpenSsl Nat Nat Nat Nat Nat Nat Unit where
  subjectName := id
  issuerName _ := 9
  pubkey := id
  serialNumber := id
  storeGetBySubject _ name := if name = 9 then (1, some 5) else (0, none)
  crlVerify _ _ := 1
  nextUpdate := id
  cmpCurrentTime _ := 1
  revoked _ := [3, 7]
  integerCmp a b := (a : Int) - b

/-- The revoked certificate, of which the issuer is not known locally, and one
that is too deep, where certificates need not be trusted. -/
theorem revoked_accepted :
    (¬∀ (verifyData : Session Unit) (ok : Int) (ctx : StoreCtx Nat) (crlStore : Unit),
      verifyData.crlStore = some crlStore → (verifyCrl oneRevoked 1 ctx.currentCert ctx crlStore).1 = 0 →
        (verifyCallback oneRevoked verifyData ok ctx).1 = 0) ∧
    ¬∀ (verifyData : Session Unit) (ok : Int) (ctx : StoreCtx Nat),
      verifyData.verifyDepth ≠ -1 → verifyData.verifyDepth < ctx.errorDepth →
        (verifyCallback oneRevoked verifyData ok ctx).1 = 0 := by
  refine ⟨fun h => ?_, fun h => ?_⟩
  · exact absurd (h ⟨verifyRequiredUntrusted, 3, some ()⟩ 0 ⟨7, errUnableToGetIssuerCertLocally, 0⟩ () rfl (by decide))
      (by decide)
  · exact absurd (h ⟨verifyOptional, 3, none⟩ 0 ⟨4, errSelfSignedCertInChain, 4⟩ (by decide) (by decide))
      (by decide)

end Libzorpll.SslVerify
