import ForgejoMcp.Client.Requests
import ForgejoMcp.Python.Str
import ForgejoMcp.Zlib.Decompressor

/-!
# Bounded responses

`_bounded_response` reads the body of a response chunk by chunk, within one bound for what comes over
the wire and for what it is decoded to.  How the body is split into chunks makes no difference.
-/

namespace ForgejoMcp.Client

open Python Zlib

/-! ### Functions -/

/-- `MAX_FORGEJO_RESPONSE_BYTES`. -/
def maxForgejoResponseBytes : ℕ := 10 * 1024 * 1024

/-- `httpx.Headers`, with the names in lower case. -/
abbrev Headers := List (Text × Text)

/-- `headers.get(name)`. -/
def Headers.get (headers : Headers) (name : Text) : Option Text :=
  match headers.filter (·.1 = name) with
  | [] => none
  | values => some (Text.join (text ", ") (values.map Prod.snd))

/-- `headers.pop(name, None)`. -/
def Headers.pop (headers : Headers) (name : Text) : Headers := headers.filter (·.1 ≠ name)

/-- The content of a response that has been read, or the chunks that `aiter_raw` gives. -/
inductive Body
  | content (bytes : List UInt8)
  | chunks (chunks : List (List UInt8))

/-- A response and the method of its request. -/
structure StreamedResponse where
  statusCode : ℕ
  method : Text
  headers : Headers
  body : Body

/-- A response whose content has been read, without the content length that `httpx` sets for it. -/
structure BufferedResponse where
  statusCode : ℕ
  headers : Headers
  content : List UInt8
  deriving DecidableEq

/-- The failure for a response over the limit. -/
def tooLarge : Failure := .externalServiceUnavailable "Forgejo response is too large"

/-- The failure for a response that does not decompress. -/
def invalidCompression : Failure := .externalServiceUnavailable "Invalid Forgejo compression"

/-- What the loop over the chunks has read. -/
structure Reception (σ : Type) where
  decoder : Option σ
  wireBytes : ℕ
  content : List UInt8

variable {σ : Type}

/-- The end of a turn of the loop. -/
def Reception.extend (r : Reception σ) (decoder : Option σ) (wireBytes : ℕ) (chunk : List UInt8) :
    Except Failure (Reception σ) :=
  if maxForgejoResponseBytes < r.content.length + chunk.length then .error tooLarge
  else .ok ⟨decoder, wireBytes, r.content ++ chunk⟩

/-- A turn of the loop. -/
def readChunk (z : Decompressor σ) (r : Reception σ) (chunk : List UInt8) :
    Except Failure (Reception σ) :=
  let wireBytes := r.wireBytes + chunk.length
  if maxForgejoResponseBytes < wireBytes then .error tooLarge
  else
    match r.decoder with
    | none => r.extend none wireBytes chunk
    | some s =>
      match z.decompress s chunk (maxForgejoResponseBytes - r.content.length + 1) with
      | none => .error invalidCompression
      | some (chunk, s) =>
        if z.unusedData s ≠ [] then .error invalidCompression
        else r.extend (some s) wireBytes chunk

variable (decompressobj : ℕ → Decompressor σ)

/-- The body of a response whose chunks have not been read. -/
def readChunks (encoding : Text) (chunks : List (List UInt8)) : Except Failure (List UInt8) := do
  let z := decompressobj (if encoding = text "gzip" then 31 else 15)
  let r ← chunks.foldlM (readChunk z)
    ⟨if encoding = text "identity" then none else some z.start, 0, []⟩
  match r.decoder with
  | none => .ok r.content
  | some s =>
    if z.eof s then .ok r.content
    else .error (.externalServiceUnavailable "Truncated Forgejo compression")

/-- The headers that describe the body that is kept. -/
def bodyHeaders (headers : Headers) : Headers :=
  ((headers.pop (text "content-encoding")).pop (text "content-length")).pop
    (text "transfer-encoding")

/-- The response has no body. -/
def bodyless (statusCode : ℕ) (method : Text) : Bool :=
  statusCode == 204 || statusCode == 304 || method == text "HEAD"

variable (lower : Text → Text) (decimal : CodePoint → Option ℕ)

/-- The declared length, `0` for none or one that is not a number. -/
def declaredLength (headers : Headers) : ℤ :=
  match headers.get (text "content-length") with
  | none => 0
  | some value => (Text.int decimal value).getD 0

/-- The content coding, by default `identity`. -/
def contentEncoding (headers : Headers) : Text :=
  lower ((headers.get (text "content-encoding")).getD (text "identity")).strip

/-- `_bounded_response`. -/
def boundedResponse (response : StreamedResponse) : Except Failure BufferedResponse := do
  if bodyless response.statusCode response.method then
    return ⟨response.statusCode, bodyHeaders response.headers, []⟩
  if (maxForgejoResponseBytes : ℤ) < declaredLength decimal response.headers then
    throw tooLarge
  let encoding := contentEncoding lower response.headers
  if encoding ∉ [text "identity", text "gzip", text "deflate"] then
    throw (.externalServiceUnavailable "Unsupported Forgejo response encoding")
  let content ← match response.body with
    | .content bytes =>
      if maxForgejoResponseBytes < bytes.length then .error tooLarge else .ok bytes
    | .chunks chunks => readChunks decompressobj encoding chunks
  return ⟨response.statusCode, bodyHeaders response.headers, content⟩

/-! ### Turns of the loop -/

variable {decompressobj} {z : Decompressor σ} {F : Format} {r r' : Reception σ}
  {wire chunk content : List UInt8} {chunks : List (List UInt8)}

theorem Reception.extend_eq_ok {decoder : Option σ} {n : ℕ} : r.extend decoder n chunk = .ok r' ↔
    r.content.length + chunk.length ≤ maxForgejoResponseBytes ∧
      r' = ⟨decoder, n, r.content ++ chunk⟩ := by
  rw [Reception.extend]
  split
  · rename_i hlt
    exact ⟨fun h => (nomatch h), fun h => absurd hlt (Nat.not_lt_of_le h.1)⟩
  · rename_i hle
    exact ⟨fun h => ⟨Nat.le_of_not_lt hle, (Except.ok.inj h).symm⟩, fun h => congrArg _ h.2.symm⟩

/-- What the loop has read of `wire` when there is nothing to decode. -/
structure ReadsIdentity (wire : List UInt8) (r : Reception σ) : Prop where
  eq : r = ⟨none, wire.length, wire⟩
  length_le : wire.length ≤ maxForgejoResponseBytes

/-- What the loop has read of `wire` with a decompressor of a format. -/
structure ReadsStream (z : Decompressor σ) (F : Format) (wire : List UInt8) (r : Reception σ) :
    Prop where
  decoder : ∃ s, r.decoder = some s ∧ z.Fed s wire ∧ z.eof s = (F.read wire).finished
  wireBytes : r.wireBytes = wire.length
  content : r.content = (F.read wire).out
  length_le : wire.length ≤ maxForgejoResponseBytes
  accepts : F.Accepts maxForgejoResponseBytes wire

theorem readChunk_identity (h : ReadsIdentity wire r) :
    readChunk z r chunk = .ok r' ↔ ReadsIdentity (wire ++ chunk) r' := by
  obtain ⟨rfl, hle⟩ := h
  rw [readChunk]
  dsimp only
  split
  · rename_i hlt
    refine ⟨fun h => (nomatch h), fun h => absurd hlt (Nat.not_lt_of_le ?_)⟩
    rw [← List.length_append]
    exact h.length_le
  · rename_i hwire
    rw [Reception.extend_eq_ok, ← List.length_append]
    exact ⟨fun h => ⟨h.2, h.1⟩, fun h => ⟨h.length_le, h.eq⟩⟩

theorem readsStream_of_readChunk (hz : z.Meets F) (h : ReadsStream z F wire r)
    (heq : readChunk z r chunk = .ok r') : ReadsStream z F (wire ++ chunk) r' := by
  obtain ⟨decoder, wireBytes, content⟩ := r
  obtain ⟨⟨s, hdecoder, hfed, -⟩, hwire, hcontent, hle, haccepts⟩ := h
  dsimp only at hdecoder hwire hcontent
  subst hdecoder hwire hcontent
  rw [readChunk] at heq
  dsimp only at heq
  split at heq
  · cases heq
  rename_i hwire
  split at heq
  · cases heq
  rename_i out s' hdecompress
  split at heq
  · cases heq
  rename_i hunused
  obtain ⟨hlength, rfl⟩ := Reception.extend_eq_ok.1 heq
  have hnext := hz.accepts_of_decompress hfed hdecompress (by simpa using hunused) hlength
  obtain ⟨s'', heq', hfed', heof, -⟩ := hz.exists_of_accepts hfed hnext
  obtain ⟨rfl, rfl⟩ := Prod.mk.inj (Option.some.inj (heq'.symm.trans hdecompress))
  refine ⟨⟨_, rfl, hfed', heof⟩, (List.length_append).symm, ?_, ?_, hnext⟩
  · exact List.prefix_iff_eq_append.1 (F.out_prefix chunk hnext.ne_bad)
  · rw [List.length_append]
    exact Nat.le_of_not_lt hwire

theorem exists_readChunk (hz : z.Meets F) (h : ReadsStream z F wire r)
    (hle : (wire ++ chunk).length ≤ maxForgejoResponseBytes)
    (hnext : F.Accepts maxForgejoResponseBytes (wire ++ chunk)) :
    ∃ r', readChunk z r chunk = .ok r' := by
  obtain ⟨decoder, wireBytes, content⟩ := r
  obtain ⟨⟨s, hdecoder, hfed, -⟩, hwire, hcontent, -, haccepts⟩ := h
  dsimp only at hdecoder hwire hcontent
  subst hdecoder hwire hcontent
  obtain ⟨s', heq, -, -, hunused⟩ := hz.exists_of_accepts hfed hnext
  have happend := List.prefix_iff_eq_append.1 (F.out_prefix chunk hnext.ne_bad)
  refine ⟨⟨some s', wire.length + chunk.length, (F.read wire).out ++
    (F.read (wire ++ chunk)).out.drop (F.read wire).out.length⟩, ?_⟩
  rw [readChunk]
  dsimp only
  rw [if_neg (by rw [← List.length_append]; exact Nat.not_lt_of_le hle), heq]
  dsimp only
  rw [hunused, if_neg (fun hne => hne rfl)]
  refine Reception.extend_eq_ok.2 ⟨?_, rfl⟩
  rw [← List.length_append, happend]
  exact hnext.length_le

/-! ### The whole loop -/

section

variable {R : List UInt8 → Reception σ → Prop} {G : List UInt8 → Prop}

/-- What every turn keeps holds after the loop. -/
theorem holds_of_foldlM (hstep : ∀ {wire r chunk r'}, R wire r → readChunk z r chunk = .ok r' →
    R (wire ++ chunk) r') (h : R wire r) (heq : chunks.foldlM (readChunk z) r = .ok r') :
    R (wire ++ chunks.flatten) r' := by
  induction chunks generalizing wire r with
  | nil =>
    cases heq
    rwa [List.flatten_nil, List.append_nil]
  | cons chunk chunks ih =>
    rw [List.foldlM_cons] at heq
    obtain ⟨r'', hr'', heq⟩ := bind_eq_ok.1 heq
    rw [List.flatten_cons, ← List.append_assoc]
    exact ih (hstep h hr'') heq

/-- The loop ends without an error if every turn does. -/
theorem exists_foldlM (hstep : ∀ {wire r chunk r'}, R wire r → readChunk z r chunk = .ok r' →
    R (wire ++ chunk) r') (hok : ∀ {wire r chunk}, R wire r → G (wire ++ chunk) →
      ∃ r', readChunk z r chunk = .ok r') (hG : ∀ {w w'}, G (w ++ w') → G w) (h : R wire r)
    (chunks : List (List UInt8)) (hwire : G (wire ++ chunks.flatten)) :
    ∃ r', chunks.foldlM (readChunk z) r = .ok r' := by
  induction chunks generalizing wire r with
  | nil => exact ⟨r, rfl⟩
  | cons chunk chunks ih =>
    rw [List.flatten_cons, ← List.append_assoc] at hwire
    obtain ⟨r'', hr''⟩ := hok h (hG hwire)
    obtain ⟨r', hr'⟩ := ih (hstep h hr'') hwire
    exact ⟨r', by rw [List.foldlM_cons]; exact bind_eq_ok.2 ⟨r'', hr'', hr'⟩⟩

end

/-- What the bytes stand for in an encoding. -/
def Decodes (gzip zlib : Format) (encoding : Text) (wire content : List UInt8) : Prop :=
  if encoding = text "identity" then content = wire
  else if encoding = text "gzip" then gzip.read wire = .done content wire.length
  else zlib.read wire = .done content wire.length

theorem readChunks_identity : readChunks decompressobj (text "identity") chunks = .ok content ↔
    chunks.flatten.length ≤ maxForgejoResponseBytes ∧ content = chunks.flatten := by
  have hstart : ReadsIdentity [] (⟨none, 0, []⟩ : Reception σ) := ⟨rfl, Nat.zero_le _⟩
  have hkeep : ∀ {wire chunk} {r r' : Reception σ}, ReadsIdentity wire r →
      readChunk (decompressobj 15) r chunk = .ok r' → ReadsIdentity (wire ++ chunk) r' :=
    fun h => (readChunk_identity h).1
  rw [readChunks, if_pos rfl]
  constructor
  · intro h
    obtain ⟨r, hr, h⟩ := bind_eq_ok.1 h
    obtain ⟨rfl, hle⟩ := holds_of_foldlM hkeep hstart hr
    cases h
    exact ⟨hle, rfl⟩
  · rintro ⟨hle, rfl⟩
    obtain ⟨r, hr⟩ := exists_foldlM (G := fun w => w.length ≤ maxForgejoResponseBytes)
      hkeep (fun h hle => ⟨_, (readChunk_identity h).2 ⟨rfl, hle⟩⟩)
      (fun h => Nat.le_trans (by simp) h) hstart chunks hle
    obtain ⟨rfl, -⟩ := holds_of_foldlM hkeep hstart hr
    exact bind_eq_ok.2 ⟨_, hr, rfl⟩

theorem readsStream_nil (hz : z.Meets F) : ReadsStream z F [] ⟨some z.start, 0, []⟩ where
  decoder := ⟨z.start, rfl, .start, hz.eof_start.trans (by rw [F.start]; rfl)⟩
  wireBytes := rfl
  content := by rw [F.start]; rfl
  length_le := Nat.zero_le _
  accepts := F.accepts_nil _

theorem readChunks_stream {encoding : Text} (hencoding : encoding ≠ text "identity")
    (hz : (decompressobj (if encoding = text "gzip" then 31 else 15)).Meets F) :
    readChunks decompressobj encoding chunks = .ok content ↔
      chunks.flatten.length ≤ maxForgejoResponseBytes ∧
        F.read chunks.flatten = .done content chunks.flatten.length ∧
        content.length ≤ maxForgejoResponseBytes := by
  have hstart := readsStream_nil hz
  rw [readChunks, if_neg hencoding]
  constructor
  · intro h
    obtain ⟨r, hr, h⟩ := bind_eq_ok.1 h
    have hreads := holds_of_foldlM (readsStream_of_readChunk hz) hstart hr
    obtain ⟨s, hdecoder, -, heof⟩ := hreads.decoder
    rw [List.nil_append] at heof hreads
    rw [hdecoder] at h
    dsimp only at h
    rw [heof] at h
    split at h
    · rename_i hend
      cases h
      have hdone := Format.done_length_iff.2 ⟨hend, hreads.accepts.unused, rfl⟩
      rw [hreads.content]
      exact ⟨hreads.length_le, hdone, hreads.accepts.length_le⟩
    · cases h
  · rintro ⟨hle, hdone, hlength⟩
    obtain ⟨hfinished, hunused, hout⟩ := Format.done_length_iff.1 hdone
    have haccepts : F.Accepts maxForgejoResponseBytes chunks.flatten :=
      ⟨by rw [hdone]; nofun, hunused, hout ▸ hlength⟩
    obtain ⟨r, hr⟩ := exists_foldlM
      (G := fun w => w.length ≤ maxForgejoResponseBytes ∧ F.Accepts maxForgejoResponseBytes w)
      (readsStream_of_readChunk hz) (fun h hG => exists_readChunk hz h hG.1 hG.2)
      (fun h => ⟨Nat.le_trans (by simp) h.1, h.2.of_append⟩) hstart chunks ⟨hle, haccepts⟩
    have hreads := holds_of_foldlM (readsStream_of_readChunk hz) hstart hr
    obtain ⟨s, hdecoder, -, heof⟩ := hreads.decoder
    refine bind_eq_ok.2 ⟨r, hr, ?_⟩
    rw [List.nil_append] at heof hreads
    rw [hdecoder]
    dsimp only
    rw [heof, hfinished, if_pos rfl, hreads.content, hout]

/-! ### Responses -/

/-- A response with a body is kept just if the bytes that come over the wire and what they stand for
are within the bound. -/
theorem boundedResponse_eq_ok_iff {gzip zlib : Format} {statusCode : ℕ} {method : Text}
    {headers : Headers} (hgzip : (decompressobj 31).Meets gzip)
    (hzlib : (decompressobj 15).Meets zlib) (hbody : bodyless statusCode method = false)
    (hlength : declaredLength decimal headers ≤ maxForgejoResponseBytes)
    (hencoding : contentEncoding lower headers ∈ [text "identity", text "gzip", text "deflate"])
    (chunks : List (List UInt8)) (result : BufferedResponse) :
    boundedResponse decompressobj lower decimal ⟨statusCode, method, headers, .chunks chunks⟩ =
        .ok result ↔
      chunks.flatten.length ≤ maxForgejoResponseBytes ∧ ∃ content,
        Decodes gzip zlib (contentEncoding lower headers) chunks.flatten content ∧
          content.length ≤ maxForgejoResponseBytes ∧
          result = ⟨statusCode, bodyHeaders headers, content⟩ := by
  have hread : ∀ content, readChunks decompressobj (contentEncoding lower headers) chunks =
      .ok content ↔ chunks.flatten.length ≤ maxForgejoResponseBytes ∧
        Decodes gzip zlib (contentEncoding lower headers) chunks.flatten content ∧
          content.length ≤ maxForgejoResponseBytes := by
    intro content
    rw [Decodes]
    by_cases hidentity : contentEncoding lower headers = text "identity"
    · rw [hidentity, readChunks_identity, if_pos rfl]
      exact ⟨fun h => ⟨h.1, h.2, h.2 ▸ h.1⟩, fun h => ⟨h.1, h.2.1⟩⟩
    · rw [if_neg hidentity]
      by_cases hg : contentEncoding lower headers = text "gzip"
      · rw [if_pos hg]
        exact readChunks_stream hidentity (by rw [if_pos hg]; exact hgzip)
      · rw [if_neg hg]
        exact readChunks_stream hidentity (by rw [if_neg hg]; exact hzlib)
  rw [boundedResponse]
  dsimp only
  rw [hbody, if_neg Bool.false_ne_true, if_neg (not_lt.2 hlength), if_neg (not_not.2 hencoding)]
  constructor
  · intro h
    obtain ⟨content, hcontent, h⟩ := bind_eq_ok.1 h
    obtain ⟨hwire, hdecodes, hle⟩ := (hread content).1 hcontent
    exact ⟨hwire, content, hdecodes, hle, (Except.ok.inj h).symm⟩
  · rintro ⟨hwire, content, hdecodes, hle, rfl⟩
    exact bind_eq_ok.2 ⟨content, (hread content).2 ⟨hwire, hdecodes, hle⟩, rfl⟩

/-- How the bytes are split into chunks makes no difference: a response is kept just if they and what
they stand for are within the bound, and then it is kept whole. -/
theorem boundedResponse_chunks {gzip zlib : Format} {statusCode : ℕ} {method : Text}
    {headers : Headers} {wire : List UInt8} (hgzip : (decompressobj 31).Meets gzip)
    (hzlib : (decompressobj 15).Meets zlib) (hbody : bodyless statusCode method = false)
    (hlength : declaredLength decimal headers ≤ maxForgejoResponseBytes)
    (hencoding : contentEncoding lower headers ∈ [text "identity", text "gzip", text "deflate"])
    (hchunks : chunks.flatten = wire) :
    (∀ chunks', chunks'.flatten = wire → ∀ result,
      (boundedResponse decompressobj lower decimal ⟨statusCode, method, headers, .chunks chunks'⟩ =
          .ok result ↔
        boundedResponse decompressobj lower decimal ⟨statusCode, method, headers, .chunks chunks⟩ =
          .ok result)) ∧
    ∀ result,
      boundedResponse decompressobj lower decimal ⟨statusCode, method, headers, .chunks chunks⟩ =
          .ok result ↔
        wire.length ≤ maxForgejoResponseBytes ∧ ∃ content,
          Decodes gzip zlib (contentEncoding lower headers) wire content ∧
            content.length ≤ maxForgejoResponseBytes ∧
            result = ⟨statusCode, bodyHeaders headers, content⟩ := by
  have hiff := boundedResponse_eq_ok_iff lower decimal hgzip hzlib hbody hlength hencoding
  refine ⟨fun chunks' hchunks' result => ?_, fun result => ?_⟩
  · rw [hiff, hiff, hchunks, hchunks']
  · rw [hiff, hchunks]

/-- What `zlib.compress(b"ok")` gives. -/
def sampleWire : List UInt8 := [0x78, 0x9C, 0xCB, 0xCF, 0x06, 0x00, 0x01, 0x4B, 0x00, 0xDB]

/-- A format with this one message. -/
def sampleFormat : Format := .single sampleWire [0x6F, 0x6B] 3 (by decide)

theorem boundedResponse_chunks_sample :
    (∀ chunks', chunks'.flatten = sampleWire → ∀ result,
      (boundedResponse (fun _ => sampleFormat.decompressor) id (fun _ => none)
          ⟨200, text "GET", [(text "content-encoding", text "deflate")], .chunks chunks'⟩ =
          .ok result ↔
        boundedResponse (fun _ => sampleFormat.decompressor) id (fun _ => none)
          ⟨200, text "GET", [(text "content-encoding", text "deflate")],
            .chunks [sampleWire.take 4, [], sampleWire.drop 4]⟩ = .ok result)) ∧
    ∀ result,
      boundedResponse (fun _ => sampleFormat.decompressor) id (fun _ => none)
          ⟨200, text "GET", [(text "content-encoding", text "deflate")],
            .chunks [sampleWire.take 4, [], sampleWire.drop 4]⟩ = .ok result ↔
        sampleWire.length ≤ maxForgejoResponseBytes ∧ ∃ content,
          Decodes sampleFormat sampleFormat
              (contentEncoding id [(text "content-encoding", text "deflate")]) sampleWire content ∧
            content.length ≤ maxForgejoResponseBytes ∧
            result = ⟨200, bodyHeaders [(text "content-encoding", text "deflate")], content⟩ :=
  boundedResponse_chunks id (fun _ => none) sampleFormat.meets_decompressor
    sampleFormat.meets_decompressor (by decide) (by decide) (by decide +kernel) (by decide)

end ForgejoMcp.Client
