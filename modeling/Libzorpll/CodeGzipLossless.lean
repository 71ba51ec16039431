import Libzorpll.CodeGzipReturns

/-! What is encoded by gzip comes back, where zlib holds nothing back at the end. -/

namespace Libzorpll.CodeGzipLossless

open Code StreamGzip ZlibContract CodeGzip CodeGzipReturns

variable {ζ χ : Type}

/-- The calls of a message: whether all of them return TRUE, and the bytes read. -/
def runGzip (zlib : Zlib ζ χ) (fuel : Nat) :
    List CodeOp → ZCodeGzip ζ χ → Option (Bool × List UInt8 × ZCodeGzip ζ χ)
  | [], s => some (true, [], s)
  | .transform buf :: ops, s =>
      (gzipTransform zlib fuel buf s).bind (fun p =>
        (runGzip zlib fuel ops p.2).map (fun q => (p.1 && q.1, q.2)))
  | .getResult tolen :: ops, s =>
      (runGzip zlib fuel ops { s with super := (getResult tolen s.super).2 }).map (fun q =>
        (q.1, (getResult tolen s.super).1 ++ q.2.1, q.2.2))

/-- The buffer has room for output, or is given some. -/
def Roomy (s : ZCodeGzip ζ χ) : Prop :=
  ∃ super, gzipRoom s = some super ∧ super.bufUsed < super.bufLen

/-- The input of each call fits into avail_in, and there is room in each round. -/
def RunRoomy (zlib : Zlib ζ χ) : List CodeOp → ZCodeGzip ζ χ → Prop
  | [], _ => True
  | .transform buf :: ops, s => buf.length < 2 ^ 32 ∧
      (buf ≠ [] → ∀ t, Begins zlib (gzipStart buf s) t → Roomy t) ∧
      ∀ fuel ok t, gzipTransform zlib fuel buf s = some (ok, t) → RunRoomy zlib ops t
  | .getResult tolen :: ops, s => RunRoomy zlib ops { s with super := (getResult tolen s.super).2 }

variable {zlib : Zlib ζ χ} {held : ζ → Nat} {owed : χ → Nat} {Ended : χ → Prop}
  {deflateInit : ζ} {inflateInit : χ} {Deflating : ζ → List UInt8 → List UInt8 → Prop}
  {Inflating : χ → List UInt8 → List UInt8 → Prop} {Stands : List UInt8 → List UInt8 → Prop}

theorem gzipRoom_contents {s : ZCodeGzip ζ χ} {super : ZCode} (h : gzipRoom s = some super) :
    super.contents = s.super.contents := by
  by_cases hshort : s.super.bufLen - s.super.bufUsed < needed s
  · simp only [gzipRoom, hshort, ↓reduceIte] at h
    obtain ⟨len, -, rfl⟩ := Option.map_eq_some_iff.mp h
    rfl
  · simp only [gzipRoom, hshort, ↓reduceIte, Option.some.injEq] at h
    rw [h]

/-- What a round does that does not fail. -/
theorem gzipAfter_fields {super : ZCode} {c : ZCall (ζ × χ)} (s : ZCodeGzip ζ χ)
    (hret : negative c.ret = false) :
    (gzipAfter super c s).super.contents = super.contents ++ c.output := by
  simp [gzipAfter, hret]

theorem gzipStart_nextIn {buf : List UInt8} (h : buf.length < 2 ^ 32) (s : ZCodeGzip ζ χ) :
    (gzipStart buf s).nextIn = buf := by
  simp only [gzipStart, Nat.mod_eq_of_lt h, List.take_length]

/-! The encoder -/

structure Encoder (Deflating : ζ → List UInt8 → List UInt8 → Prop) (Stands : List UInt8 → List UInt8 → Prop)
    (s : ZCodeGzip ζ χ) (given taken : List UInt8) : Prop where
  encode : s.encode = true
  deflating : Deflating s.gzip.1 given taken
  finished : s.nextIn = []
  flushed : given ≠ [] → 0 < s.availOut → Stands taken given
  nothing : given = [] → taken = []

theorem round_encode (hz : Lossless zlib deflateInit inflateInit Deflating Inflating Stands)
    {s t : ZCodeGzip ζ χ} {ret : ZRet} {given taken : List UInt8} (hmode : s.encode = true)
    (hs : Deflating s.gzip.1 given taken) (hleft : s.nextIn ≠ [])
    (hround : gzipRound zlib s = some (ret, t)) (hret : negative ret = false) :
    ∃ n out, t.encode = true ∧ t.nextIn = s.nextIn.drop n ∧
      t.super.contents = s.super.contents ++ out ∧
      Deflating t.gzip.1 (given ++ s.nextIn.take n) (taken ++ out) ∧
      (0 < t.availOut → Stands (taken ++ out) (given ++ s.nextIn)) := by
  obtain ⟨super, hroom, rfl, rfl⟩ := gzipRound_some hround
  have hcontents := @gzipAfter_fields _ _ super _ s hret
  rw [gzipRoom_contents hroom] at hcontents
  simp only [gzipCall, hmode, ↓reduceIte] at hret
  refine ⟨_, _, hmode, rfl, hcontents, ?_, ?_⟩
  · simp only [gzipAfter, gzipCall, hmode, ↓reduceIte]
    exact hz.deflate_next _ _ _ _ _ hs hret
  · intro hspace
    simp only [gzipAfter, gzipCall, hmode, ↓reduceIte] at hspace ⊢
    exact (hz.deflate_flushed _ _ _ _ _ hs hleft hret (by omega)).2

theorem loop_encode (hz : Lossless zlib deflateInit inflateInit Deflating Inflating Stands) {fuel : Nat}
    {s t : ZCodeGzip ζ χ} {given taken : List UInt8} (hmode : s.encode = true)
    (hs : Deflating s.gzip.1 given taken) (hleft : s.nextIn ≠ [])
    (h : gzipLoop zlib fuel s = some (true, t)) :
    ∃ out, t.encode = true ∧ t.nextIn = [] ∧ t.super.contents = s.super.contents ++ out ∧
      Deflating t.gzip.1 (given ++ s.nextIn) (taken ++ out) ∧
      (0 < t.availOut → Stands (taken ++ out) (given ++ s.nextIn)) := by
  induction fuel generalizing s given taken with
  | zero => cases h
  | succ fuel ih =>
      cases hround : gzipRound zlib s with
      | none => simp only [gzipLoop, hround, reduceCtorEq] at h
      | some p =>
          obtain ⟨ret, u⟩ := p
          cases hret : negative ret with
          | true =>
              rw [gzipLoop_failed hround hret] at h
              cases h
          | false =>
              obtain ⟨n, out, hmode', hnext, hcontents, hdeflating, hflushed⟩ :=
                round_encode hz hmode hs hleft hround hret
              have hsplit := List.take_append_drop n s.nextIn
              rw [← hnext] at hsplit
              by_cases hdone : u.nextIn = []
              · rw [gzipLoop_last hround hret hdone] at h
                cases h
                rw [hdone, List.append_nil] at hsplit
                rw [hsplit] at hdeflating
                exact ⟨out, hmode', hdone, hcontents, hdeflating, hflushed⟩
              · rw [gzipLoop_next hround hret hdone] at h
                obtain ⟨more, hmode'', hdone', hcontents', hdeflating', hflushed'⟩ :=
                  ih hmode' hdeflating hdone h
                rw [List.append_assoc, List.append_assoc, hsplit] at hdeflating' hflushed'
                refine ⟨out ++ more, hmode'', hdone', ?_, hdeflating', hflushed'⟩
                rw [hcontents', hcontents, List.append_assoc]

theorem run_encode (hz : Lossless zlib deflateInit inflateInit Deflating Inflating Stands) {fuel : Nat}
    {ops : List CodeOp} {s t : ZCodeGzip ζ χ} {given taken read : List UInt8}
    (hs : Encoder Deflating Stands s given taken) (hsmall : ∀ op ∈ ops, (opInput op).length < 2 ^ 32)
    (h : runGzip zlib fuel ops s = some (true, read, t)) :
    ∃ out, Encoder Deflating Stands t (given ++ input ops) (taken ++ out) ∧
      read ++ t.super.contents = s.super.contents ++ out := by
  induction ops generalizing s given taken read with
  | nil =>
      cases h
      refine ⟨[], ?_, by simp⟩
      rw [input, List.flatMap_nil, List.append_nil, List.append_nil]
      exact hs
  | cons op ops ih =>
      rw [List.forall_mem_cons] at hsmall
      cases op with
      | transform buf =>
          obtain ⟨⟨ok, u⟩, hcall, hrest⟩ := Option.bind_eq_some_iff.mp h
          obtain ⟨⟨oks, out', v⟩, hrun, heq⟩ := Option.map_eq_some_iff.mp hrest
          rw [Prod.mk.injEq, Bool.and_eq_true] at heq
          obtain ⟨⟨rfl, rfl⟩, heq⟩ := heq
          cases heq
          have hinput : input (.transform buf :: ops) = buf ++ input ops := rfl
          by_cases hnone : buf = []
          · rw [gzipTransform, if_pos hnone] at hcall
            cases hcall
            rw [hinput, hnone, List.nil_append]
            exact ih hs hsmall.2 hrun
          · have hopen : s.endOfStream = false := by
              cases hend : s.endOfStream with
              | false => rfl
              | true =>
                  rw [gzipTransform, if_neg hnone, if_pos hend] at hcall
                  cases hcall
            simp only [gzipTransform, hnone, hopen, Bool.false_eq_true, ↓reduceIte] at hcall
            have hlen : buf.length < 2 ^ 32 := hsmall.1
            have hnext := gzipStart_nextIn hlen s
            obtain ⟨out, hmode, hdone, hcontents, hdeflating, hflushed⟩ :=
              loop_encode hz (s := gzipStart buf s) hs.encode hs.deflating
                (by rw [hnext]; exact hnone) hcall
            rw [hnext] at hdeflating hflushed
            have hu : Encoder Deflating Stands u (given ++ buf) (taken ++ out) :=
              ⟨hmode, hdeflating, hdone, fun _ => hflushed,
                fun hempty => absurd (List.append_eq_nil_iff.mp hempty).2 hnone⟩
            obtain ⟨more, hmore, hread⟩ := ih hu hsmall.2 hrun
            rw [List.append_assoc, List.append_assoc] at hmore
            refine ⟨out ++ more, hmore, ?_⟩
            have hcontents : u.super.contents = s.super.contents ++ out := hcontents
            rw [hread, hcontents, List.append_assoc]
      | getResult tolen =>
          obtain ⟨⟨oks, out', v⟩, hrun, heq⟩ := Option.map_eq_some_iff.mp h
          cases heq
          obtain ⟨c, hc, hleft, -, -⟩ := getResult_spec tolen s.super
          rw [hc] at hrun ⊢
          have hu : Encoder Deflating Stands { s with super := c } given taken :=
            ⟨hs.encode, hs.deflating, hs.finished, hs.flushed, hs.nothing⟩
          obtain ⟨more, hmore, hread⟩ := ih hu hsmall.2 hrun
          refine ⟨more, hmore, ?_⟩
          have hread : out' ++ v.super.contents = c.contents ++ more := hread
          rw [List.append_assoc, hread, hleft, ← List.append_assoc, List.take_append_drop]

/-! The decoder -/

structure Decoder (Inflating : χ → List UInt8 → List UInt8 → Prop) (Stands : List UInt8 → List UInt8 → Prop)
    (s : ZCodeGzip ζ χ) (fed gave : List UInt8) : Prop where
  decode : s.encode = false
  going : s.endOfStream = false
  inflating : Inflating s.gzip.2 fed gave
  finished : s.nextIn = []
  complete : fed ≠ [] → 0 < s.availOut → ∀ bytes, Stands fed bytes → gave = bytes
  nothing : fed = [] → gave = [] ∧ s.availOut = 0

/-- The decoder in its loop, before the rest of a stream. -/
structure Feeding (Deflating : ζ → List UInt8 → List UInt8 → Prop)
    (Inflating : χ → List UInt8 → List UInt8 → Prop) (text : List UInt8) (s : ZCodeGzip ζ χ)
    (fed gave : List UInt8) : Prop where
  decode : s.encode = false
  going : s.endOfStream = false
  inflating : Inflating s.gzip.2 fed gave
  left : s.nextIn ≠ []
  stream : fed ++ s.nextIn = text ∧ ∃ z given rest, Deflating z given (text ++ rest)

theorem round_decode (hz : Lossless zlib deflateInit inflateInit Deflating Inflating Stands)
    {s : ZCodeGzip ζ χ} {text fed gave : List UInt8} (hs : Feeding Deflating Inflating text s fed gave)
    (hroomy : Roomy s) :
    ∃ t n out, gzipRound zlib s = some (.ok, t) ∧ t.encode = false ∧ t.endOfStream = false ∧
      t.nextIn = s.nextIn.drop n ∧ t.super.contents = s.super.contents ++ out ∧
      Inflating t.gzip.2 (fed ++ s.nextIn.take n) (gave ++ out) ∧
      (0 < t.availOut → ∀ bytes, Stands text bytes → gave ++ out = bytes) := by
  obtain ⟨super, hroom, hspace⟩ := hroomy
  obtain ⟨htext, z, given, rest, hstream⟩ := hs.stream
  rw [← htext] at hstream
  have hmode := hs.decode
  obtain ⟨hret, hnext⟩ := hz.inflate_next s.nextIn (super.bufLen - super.bufUsed) _ _ _ _ _ _
    hs.inflating hstream hs.left (by omega)
  have hround := @gzipRound_of_room _ _ zlib _ _ hroom
  have hcall : (gzipCall zlib (super.bufLen - super.bufUsed) s).ret = .ok := by
    simpa only [gzipCall, hmode, Bool.false_eq_true, ↓reduceIte] using hret
  have hcontents := @gzipAfter_fields _ _ super _ s
    (show negative (gzipCall zlib (super.bufLen - super.bufUsed) s).ret = false by rw [hcall]; rfl)
  rw [gzipRoom_contents hroom] at hcontents
  rw [hcall] at hround
  refine ⟨_, _, _, hround, hmode, ?_, rfl, hcontents, ?_, ?_⟩
  · simp [gzipAfter, hs.going, hcall]
  · simp only [gzipAfter, gzipCall, hmode, Bool.false_eq_true, ↓reduceIte]
    exact hnext
  · intro hleft bytes hbytes
    simp only [gzipAfter, gzipCall, hmode, Bool.false_eq_true, ↓reduceIte] at hleft ⊢
    rw [← htext] at hbytes
    exact (hz.inflate_complete _ _ _ _ _ _ _ _ hs.inflating hstream hs.left (by omega)).2 bytes hbytes

theorem begins_feeding (hz : Lossless zlib deflateInit inflateInit Deflating Inflating Stands)
    {s t : ZCodeGzip ζ χ} {text fed gave : List UInt8} (hs : Feeding Deflating Inflating text s fed gave)
    (hroomy : ∀ t, Begins zlib s t → Roomy t) (h : Begins zlib s t) :
    ∃ fed gave, Feeding Deflating Inflating text t fed gave := by
  induction h generalizing fed gave with
  | first s => exact ⟨fed, gave, hs⟩
  | @next s u t ret hround hret hleft h ih =>
      obtain ⟨v, n, out, hround', hmode, hgoing, hnext, -, hinflating, -⟩ :=
        round_decode hz hs (hroomy s (.first s))
      rw [hround'] at hround
      cases hround
      refine ih ⟨hmode, hgoing, hinflating, hleft, ?_, hs.stream.2⟩
        (fun t ht => hroomy t (.next hround' rfl hleft ht))
      rw [hnext, List.append_assoc, List.take_append_drop]
      exact hs.stream.1

theorem loop_decode (hz : Lossless zlib deflateInit inflateInit Deflating Inflating Stands) {fuel : Nat}
    {s t : ZCodeGzip ζ χ} {text fed gave : List UInt8} {ok : Bool}
    (hs : Feeding Deflating Inflating text s fed gave) (hroomy : ∀ t, Begins zlib s t → Roomy t)
    (h : gzipLoop zlib fuel s = some (ok, t)) :
    ok = true ∧ ∃ out, t.encode = false ∧ t.endOfStream = false ∧ t.nextIn = [] ∧
      t.super.contents = s.super.contents ++ out ∧ Inflating t.gzip.2 text (gave ++ out) ∧
      (0 < t.availOut → ∀ bytes, Stands text bytes → gave ++ out = bytes) := by
  induction fuel generalizing s fed gave with
  | zero => cases h
  | succ fuel ih =>
      obtain ⟨u, n, out, hround, hmode, hgoing, hnext, hcontents, hinflating, hcomplete⟩ :=
        round_decode hz hs (hroomy s (.first s))
      have hsplit := List.take_append_drop n s.nextIn
      rw [← hnext] at hsplit
      by_cases hdone : u.nextIn = []
      · rw [gzipLoop_last hround rfl hdone] at h
        cases h
        rw [hdone, List.append_nil] at hsplit
        rw [hsplit, hs.stream.1] at hinflating
        exact ⟨rfl, out, hmode, hgoing, hdone, hcontents, hinflating, hcomplete⟩
      · rw [gzipLoop_next hround rfl hdone] at h
        have hu : Feeding Deflating Inflating text u (fed ++ s.nextIn.take n) (gave ++ out) := by
          refine ⟨hmode, hgoing, hinflating, hdone, ?_, hs.stream.2⟩
          rw [List.append_assoc, hsplit]
          exact hs.stream.1
        obtain ⟨hok, more, hmode', hgoing', hdone', hcontents', hinflating', hcomplete'⟩ :=
          ih hu (fun t ht => hroomy t (.next hround rfl hdone ht)) h
        rw [List.append_assoc] at hinflating' hcomplete'
        refine ⟨hok, out ++ more, hmode', hgoing', hdone', ?_, hinflating', hcomplete'⟩
        rw [hcontents', hcontents, List.append_assoc]

theorem gzipLoop_mono {fuel more : Nat} (hle : fuel ≤ more) {s : ZCodeGzip ζ χ}
    {r : Bool × ZCodeGzip ζ χ} (h : gzipLoop zlib fuel s = some r) : gzipLoop zlib more s = some r := by
  induction fuel generalizing more s with
  | zero => cases h
  | succ fuel ih =>
      obtain ⟨more, rfl⟩ := Nat.exists_eq_add_of_le' (Nat.le_trans (Nat.le_add_left 1 fuel) hle)
      cases hround : gzipRound zlib s with
      | none => simp only [gzipLoop, hround, reduceCtorEq] at h
      | some p =>
          obtain ⟨ret, t⟩ := p
          cases hret : negative ret with
          | true =>
              rw [gzipLoop_failed hround hret] at h ⊢
              exact h
          | false =>
              by_cases hdone : t.nextIn = []
              · rw [gzipLoop_last hround hret hdone] at h ⊢
                exact h
              · rw [gzipLoop_next hround hret hdone] at h ⊢
                exact ih (Nat.le_of_succ_le_succ hle) h

theorem gzipTransform_mono {fuel more : Nat} (hle : fuel ≤ more) {buf : List UInt8} {s : ZCodeGzip ζ χ}
    {r : Bool × ZCodeGzip ζ χ} (h : gzipTransform zlib fuel buf s = some r) :
    gzipTransform zlib more buf s = some r := by
  rw [gzipTransform] at h ⊢
  by_cases hnone : buf = []
  · rw [if_pos hnone] at h ⊢
    exact h
  · rw [if_neg hnone] at h ⊢
    split
    · rename_i hend
      rw [if_pos hend] at h
      exact h
    · rename_i hend
      rw [if_neg hend] at h
      exact gzipLoop_mono hle h

/-- The calls return with any fuel that is enough. -/
theorem runGzip_mono {fuel more : Nat} (hle : fuel ≤ more) {ops : List CodeOp} {s : ZCodeGzip ζ χ}
    {r : Bool × List UInt8 × ZCodeGzip ζ χ} (h : runGzip zlib fuel ops s = some r) :
    runGzip zlib more ops s = some r := by
  induction ops generalizing s r with
  | nil => exact h
  | cons op ops ih =>
      cases op with
      | transform buf =>
          obtain ⟨p, hcall, hrest⟩ := Option.bind_eq_some_iff.mp h
          obtain ⟨q, hrun, rfl⟩ := Option.map_eq_some_iff.mp hrest
          rw [runGzip, gzipTransform_mono hle hcall, Option.bind_some, ih hrun, Option.map_some]
      | getResult tolen =>
          obtain ⟨q, hrun, rfl⟩ := Option.map_eq_some_iff.mp h
          rw [runGzip, ih hrun, Option.map_some]

theorem run_decode (hp : Progresses zlib held owed Ended)
    (hz : Lossless zlib deflateInit inflateInit Deflating Inflating Stands) {ops : List CodeOp}
    {s : ZCodeGzip ζ χ} {z : ζ} {given fed gave : List UInt8} (hs : Decoder Inflating Stands s fed gave)
    (husable : Usable Ended s) (hstream : Deflating z given (fed ++ input ops)) (hroomy : RunRoomy zlib ops s) :
    ∃ fuel read t out, runGzip zlib fuel ops s = some (true, read, t) ∧
      Decoder Inflating Stands t (fed ++ input ops) (gave ++ out) ∧
      read ++ t.super.contents = s.super.contents ++ out := by
  induction ops generalizing s fed gave with
  | nil =>
      refine ⟨0, [], s, [], rfl, ?_, by simp⟩
      rw [input, List.flatMap_nil, List.append_nil, List.append_nil]
      exact hs
  | cons op ops ih =>
      cases op with
      | transform buf =>
          have hinput : input (.transform buf :: ops) = buf ++ input ops := rfl
          obtain ⟨hlen, hrounds, hrest⟩ := hroomy
          by_cases hnone : buf = []
          · have hcall : ∀ fuel, gzipTransform zlib fuel buf s = some (true, s) := by
              intro fuel
              rw [gzipTransform, if_pos hnone]
            rw [hinput, hnone, List.nil_append] at hstream ⊢
            obtain ⟨fuel, read, t, out, hrun, ht, hread⟩ := ih hs husable hstream (hrest 0 true s (hcall 0))
            refine ⟨fuel, read, t, out, ?_, ht, hread⟩
            rw [runGzip, ← hnone, hcall, Option.bind_some, hrun]
            rfl
          · have hnext := gzipStart_nextIn hlen s
            have hfeeding : Feeding Deflating Inflating (fed ++ buf) (gzipStart buf s) fed gave := by
              refine ⟨hs.decode, hs.going, hs.inflating, by rw [hnext]; exact hnone, by rw [hnext], z, given,
                input ops, ?_⟩
              rw [List.append_assoc]
              exact hstream
            have hgoes : GoesWell zlib (gzipStart buf s) := by
              intro t ht
              obtain ⟨_, _, ht'⟩ := begins_feeding hz hfeeding (hrounds hnone) ht
              obtain ⟨super, hsuper, -⟩ := hrounds hnone t ht
              exact ⟨ht'.going, by rw [hsuper]; rfl⟩
            have hloop : ∀ fuel, gzipTransform zlib fuel buf s = gzipLoop zlib fuel (gzipStart buf s) := by
              intro fuel
              simp only [gzipTransform, hnone, hs.going, Bool.false_eq_true, ↓reduceIte]
            obtain ⟨fuel, ⟨ok, u⟩, hu⟩ := loop_returns hp _ (gzipStart_usable husable buf) hgoes
            obtain ⟨rfl, out, hmode, hgoing, hdone, hcontents, hinflating, hcomplete⟩ :=
              loop_decode hz hfeeding (hrounds hnone) hu
            have hcall := (hloop fuel).trans hu
            have hdecoder : Decoder Inflating Stands u (fed ++ buf) (gave ++ out) :=
              ⟨hmode, hgoing, hinflating, hdone, fun _ => hcomplete,
                fun hempty => absurd (List.append_eq_nil_iff.mp hempty).2 hnone⟩
            rw [hinput, ← List.append_assoc] at hstream ⊢
            obtain ⟨fuel', read, t, more, hrun, ht, hread⟩ :=
              ih hdecoder (gzipTransform_usable hp husable hcall) hstream (hrest fuel true u hcall)
            refine ⟨max fuel fuel', read, t, out ++ more, ?_, ?_, ?_⟩
            · rw [runGzip, gzipTransform_mono (Nat.le_max_left _ _) hcall, Option.bind_some,
                runGzip_mono (Nat.le_max_right _ _) hrun]
              rfl
            · rw [← List.append_assoc]
              exact ht
            · have hcontents : u.super.contents = s.super.contents ++ out := hcontents
              rw [hread, hcontents, List.append_assoc]
      | getResult tolen =>
          obtain ⟨c, hc, hleft, -, -⟩ := getResult_spec tolen s.super
          have hroomy : RunRoomy zlib ops { s with super := (getResult tolen s.super).2 } := hroomy
          rw [hc] at hroomy
          have hu : Decoder Inflating Stands { s with super := c } fed gave :=
            ⟨hs.decode, hs.going, hs.inflating, hs.finished, hs.complete, hs.nothing⟩
          obtain ⟨fuel, read, t, out, hrun, ht, hread⟩ :=
            ih hu ⟨husable.going, husable.ended⟩ hstream hroomy
          refine ⟨fuel, s.super.contents.take tolen ++ read, t, out, ?_, ht, ?_⟩
          · rw [runGzip, hc, hrun]
            rfl
          · have hread : read ++ t.super.contents = c.contents ++ out := hread
            rw [List.append_assoc, hread, hleft, ← List.append_assoc, List.take_append_drop]

/-- What is encoded comes back from a decoder, in whatever calls, if the last
call of deflate and that of inflate return with space left, the calls fit into
avail_in, and the decoder's buffer can be grown. -/
theorem gzip_lossless (hp : Progresses zlib held owed Ended)
    (hz : Lossless zlib deflateInit inflateInit Deflating Inflating Stands) (hopen : ¬Ended inflateInit)
    (bufsizeEncode bufsizeDecode : Int) {ops dec : List CodeOp} {fuel : Nat} {read : List UInt8}
    {s : ZCodeGzip ζ χ}
    (hencode : runGzip zlib fuel ops (gzipInit bufsizeEncode true (deflateInit, inflateInit)) =
      some (true, read, s))
    (hsmall : ∀ op ∈ ops, (opInput op).length < 2 ^ 32) (hflushed : input ops = [] ∨ 0 < s.availOut)
    (hdec : input dec = read ++ s.super.contents)
    (hroomy : RunRoomy zlib dec (gzipInit bufsizeDecode false (deflateInit, inflateInit))) :
    gzipFinish s = true ∧
    ∃ fuel read t, runGzip zlib fuel dec (gzipInit bufsizeDecode false (deflateInit, inflateInit)) =
        some (true, read, t) ∧ gzipFinish t = true ∧
      (input ops = [] ∨ 0 < t.availOut → read ++ t.super.contents = input ops) := by
  have hstart : Encoder Deflating Stands (gzipInit bufsizeEncode true (deflateInit, inflateInit)) [] [] :=
    ⟨rfl, hz.deflate_start, rfl, fun h => absurd rfl h, fun _ => rfl⟩
  obtain ⟨text, hs, hread⟩ := run_encode hz hstart hsmall hencode
  have htext : input dec = text := hdec.trans hread
  have hstart' : Decoder Inflating Stands (gzipInit bufsizeDecode false (deflateInit, inflateInit)) [] [] :=
    ⟨rfl, rfl, hz.inflate_start, rfl, fun h => absurd rfl h, fun _ => ⟨rfl, rfl⟩⟩
  have hstream : Deflating s.gzip.1 (input ops) ([] ++ input dec) := htext ▸ hs.deflating
  obtain ⟨fuel', read', t, out, hrun, ht, hread'⟩ := run_decode hp hz hstart'
    (gzipInit_usable bufsizeDecode false hopen) hstream hroomy
  refine ⟨by simp [gzipFinish, hs.finished], fuel', read', t, hrun, by simp [gzipFinish, ht.finished], ?_⟩
  intro hcomplete
  have hout : read' ++ t.super.contents = out := hread'
  rw [hout]
  by_cases hnone : input ops = []
  · have hempty : text = [] := hs.nothing hnone
    have hgave := (ht.nothing (by rw [htext, hempty]; rfl)).1
    rw [hnone]
    exact hgave
  · have hspace : 0 < t.availOut := hcomplete.resolve_left hnone
    have hstands : Stands text (input ops) := hs.flushed hnone (hflushed.resolve_left hnone)
    have hfed : [] ++ input dec ≠ [] := by
      intro hempty
      have hzero := (ht.nothing hempty).2
      omega
    exact ht.complete hfed hspace _ (htext ▸ hstands)

/-- Ten bytes through a buffer that is large enough. -/
theorem gzip_lossless_ten :
    ∃ s, runGzip ZlibStored.zlib 1 [.transform [1, 2, 3, 4, 5, 6, 7, 8, 9, 10]]
        (gzipInit 64 true ({}, .header 2)) = some (true, [], s) ∧
      gzipFinish s = true ∧
      ∃ fuel read t, runGzip ZlibStored.zlib fuel
          [.transform [0x78, 0x01, 0, 10, 0, 0xf5, 0xff, 1, 2, 3, 4, 5, 6, 7, 8, 9, 10, 0, 0, 0, 0xff, 0xff],
            .getResult 5] (gzipInit 0 false ({}, .header 2)) = some (true, read, t) ∧
        gzipFinish t = true ∧
        (input [.transform [1, 2, 3, 4, 5, 6, 7, 8, 9, 10]] = [] ∨ 0 < t.availOut →
          read ++ t.super.contents = input [.transform [1, 2, 3, 4, 5, 6, 7, 8, 9, 10]]) := by
  have hencode : runGzip ZlibStored.zlib 1 [.transform [1, 2, 3, 4, 5, 6, 7, 8, 9, 10]]
      (gzipInit 64 true ({}, .header 2)) = some (true, [], _) := rfl
  refine ⟨_, hencode, gzip_lossless ZlibStored.progresses ZlibStored.lossless (by decide) 64 0 hencode
    (by decide) (.inr (by decide +kernel)) (by decide +kernel) ⟨by decide, fun _ t ht => ?_, ?_⟩⟩
  · cases ht with
    | first => exact ⟨_, rfl, by decide +kernel⟩
    | next hround hret hleft h =>
        rw [gzipRound_of_room rfl] at hround
        cases hround
        exact absurd (by decide +kernel) hleft
  · intro fuel ok t _
    trivial

/-- A buffer of sixteen bytes is full before the tenth byte is out. -/
theorem gzip_loses_byte :
    ∃ read s read' t, runGzip ZlibStored.zlib 1 [.transform [1, 2, 3, 4, 5, 6, 7, 8, 9, 10]]
        (gzipInit 16 true ({}, .header 2)) = some (true, read, s) ∧ gzipFinish s = true ∧
      runGzip ZlibStored.zlib 1 [.transform (read ++ s.super.contents)]
        (gzipInit 0 false ({}, .header 2)) = some (true, read', t) ∧ gzipFinish t = true ∧
      read' ++ t.super.contents = [1, 2, 3, 4, 5, 6, 7, 8, 9] :=
  ⟨_, _, _, _, rfl, by decide +kernel, rfl, by decide +kernel, by decide +kernel⟩

end Libzorpll.CodeGzipLossless
