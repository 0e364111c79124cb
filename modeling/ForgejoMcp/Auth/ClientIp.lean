import ForgejoMcp.Python.IpNetwork

/-!
# The address of a client

`get_client_ip` takes the address of the peer, and the one that trusted proxies report when the peer
is one of them. What a client writes before the hops of the proxies has no effect.
-/

namespace ForgejoMcp.Auth

open Python

/-! ### Settings -/

/-- `Settings.validate_trusted_proxy_cidrs`. -/
def validateTrustedProxyCidrs (cidrs : List Text) : Except String (List Text) :=
  match cidrs.mapM fun cidr => (ipNetwork false cidr.strip).map (·.str) with
  | none => .error "trusted proxy CIDRs must be valid IPv4 or IPv6 networks"
  | some normalized =>
    if normalized.length ≠ normalized.dedup.length then
      .error "trusted proxy CIDRs must be unique"
    else .ok normalized

/-- The settings that `get_client_ip` reads, as they were validated. -/
structure Settings where
  trustedProxyCidrs : List Text
  validated : ∃ cidrs, validateTrustedProxyCidrs cidrs = .ok trustedProxyCidrs

/-- `ip_network` raises for none of the networks of the settings. -/
theorem Settings.ipNetwork_isSome (settings : Settings) :
    ∀ cidr ∈ settings.trustedProxyCidrs, (ipNetwork true cidr).isSome := by
  obtain ⟨normalized, cidrs, hvalidated⟩ := settings
  intro cidr hcidr
  rw [validateTrustedProxyCidrs] at hvalidated
  split at hvalidated
  · cases hvalidated
  · rename_i networks hread
    split at hvalidated
    · cases hvalidated
    · cases hvalidated
      obtain ⟨i, hi, rfl⟩ := List.getElem_of_mem hcidr
      have hread := forall₂_of_mapM hread
      have hnetwork := hread.get (by rwa [hread.length_eq]) hi
      obtain ⟨network, hsome, hstr⟩ := Option.map_eq_some_iff.1 hnetwork
      rw [List.get_eq_getElem] at hstr
      rw [← hstr, ipNetwork_str (valid_of_ipNetwork hsome)]
      rfl

/-! ### `get_client_ip` -/

/-- The host of the peer, and the headers with names in lower case. -/
structure Request where
  client : Option Text
  headers : List (Text × Text)

/-- `request.headers.getlist(name)`. -/
def Request.getlist (request : Request) (name : Text) : List Text :=
  (request.headers.filter (·.1 = name)).map (·.2)

/-- `_MAX_FORWARDED_HOPS`. -/
def maxForwardedHops : ℕ := 32

/-- `address.ipv4_mapped`. -/
def ipv4Mapped (a : ScopedAddress) : Option ScopedAddress :=
  match a.address with
  | .v4 _ => none
  | .v6 n => if n / 2 ^ 32 = 0xFFFF then some ⟨.v4 (n % 2 ^ 32), none⟩ else none

/-- `_parse_ip`. -/
def parseIp (value : Text) : Option ScopedAddress :=
  (scopedAddress value).map fun a => (ipv4Mapped a).getD a

/-- `_is_trusted`. -/
def isTrusted (a : ScopedAddress) (cidrs : List Text) : Bool :=
  cidrs.any fun cidr => (ipNetwork true cidr).any (·.contains a)

/-- `get_client_ip`. -/
def getClientIp (request : Request) (settings : Settings) : Option Text :=
  match request.client with
  | none => none
  | some host =>
    let peerText := host.strip
    match parseIp peerText with
    | none => if (peerText.take 255).isEmpty then none else some (peerText.take 255)
    | some peer =>
      if !isTrusted peer settings.trustedProxyCidrs then some peer.str
      else
        let forwardedValues := request.getlist (text "x-forwarded-for")
        if forwardedValues.isEmpty then some peer.str
        else
          let parts := ((Text.join [0x2C] forwardedValues).split 0x2C).map Text.strip
          if parts.isEmpty ∨ maxForwardedHops < parts.length ∨ parts.any (·.isEmpty) then
            some peer.str
          else
            match parts.mapM parseIp with
            | none => some peer.str
            | some chain =>
              let untrusted := (chain ++ [peer]).reverse.find?
                (!isTrusted · settings.trustedProxyCidrs)
              some (untrusted.getD (chain.head?.getD peer)).str

/-! ### Peers and chains -/

/-- The address of the peer. -/
def Request.peer (request : Request) : Option ScopedAddress :=
  request.client.bind fun host => parseIp host.strip

/-- The hops of all header lines, in order. -/
def Request.hops (request : Request) : List Text :=
  (request.getlist (text "x-forwarded-for")).flatMap fun line => (line.split 0x2C).map Text.strip

/-- A well-formed header within the limit, and the addresses of its hops. -/
structure Request.Chain (request : Request) (chain : List ScopedAddress) : Prop where
  present : request.hops ≠ []
  limit : request.hops.length ≤ maxForwardedHops
  addresses : request.hops.mapM parseIp = some chain

variable {settings : Settings} {request : Request} {peer : ScopedAddress}
  {chain : List ScopedAddress}

theorem Request.hops_eq_nil_iff :
    request.hops = [] ↔ request.getlist (text "x-forwarded-for") = [] := by
  constructor
  · intro h
    cases hlines : request.getlist (text "x-forwarded-for") with
    | nil => rfl
    | cons line lines =>
      obtain ⟨first, items, hsplit⟩ := Text.exists_split line 0x2C
      rw [Request.hops, hlines, List.flatMap_cons, hsplit] at h
      cases h
  · intro h
    rw [Request.hops, h, List.flatMap_nil]

theorem Request.parts_eq_hops (h : request.getlist (text "x-forwarded-for") ≠ []) :
    ((Text.join [0x2C] (request.getlist (text "x-forwarded-for"))).split 0x2C).map Text.strip =
      request.hops := by
  rw [Text.split_join _ h, List.map_flatMap, Request.hops]

theorem parseIp_nil : parseIp [] = none := by decide

/-- No hop of a chain is empty. -/
theorem Request.Chain.any_isEmpty (h : request.Chain chain) :
    request.hops.any (·.isEmpty) = false := by
  rw [List.any_eq_false]
  intro hop hhop
  obtain ⟨i, hi, rfl⟩ := List.getElem_of_mem hhop
  have hread := forall₂_of_mapM h.addresses
  have haddress := hread.get hi (by rwa [← hread.length_eq])
  rw [List.get_eq_getElem] at haddress
  intro hempty
  rw [List.isEmpty_iff.1 hempty, parseIp_nil] at haddress
  cases haddress

/-- What the header says is told by its hops alone. -/
theorem getClientIp_of_peer (hpeer : request.peer = some peer) :
    getClientIp request settings = some (
      if !isTrusted peer settings.trustedProxyCidrs then peer.str
      else if request.hops = [] ∨ maxForwardedHops < request.hops.length ∨
          request.hops.any (·.isEmpty) then peer.str
      else match request.hops.mapM parseIp with
        | none => peer.str
        | some chain => (((chain ++ [peer]).reverse.find?
            (!isTrusted · settings.trustedProxyCidrs)).getD (chain.head?.getD peer)).str) := by
  obtain ⟨host, hclient, hhost⟩ := Option.bind_eq_some_iff.1 hpeer
  rw [getClientIp, hclient]
  dsimp only
  rw [hhost]
  dsimp only
  split
  · rfl
  · by_cases hnil : request.getlist (text "x-forwarded-for") = []
    · rw [if_pos (List.isEmpty_iff.2 hnil), if_pos (.inl (Request.hops_eq_nil_iff.2 hnil))]
    · rw [if_neg (mt List.isEmpty_iff.1 hnil), Request.parts_eq_hops hnil]
      simp only [List.isEmpty_iff]
      split
      · rfl
      · cases request.hops.mapM parseIp with
        | none => rfl
        | some chain => rfl

theorem getClientIp_of_chain (hpeer : request.peer = some peer)
    (htrusted : isTrusted peer settings.trustedProxyCidrs = true) (hchain : request.Chain chain) :
    getClientIp request settings = some (((chain ++ [peer]).reverse.find?
      (!isTrusted · settings.trustedProxyCidrs)).getD (chain.head?.getD peer)).str := by
  have hok : ¬(request.hops = [] ∨ maxForwardedHops < request.hops.length ∨
      request.hops.any (·.isEmpty) = true) := by
    rw [hchain.any_isEmpty, not_or, not_or]
    exact ⟨hchain.present, Nat.not_lt_of_le hchain.limit, Bool.false_ne_true⟩
  rw [getClientIp_of_peer hpeer, if_neg (by rw [htrusted]; decide), if_neg hok, hchain.addresses]

/-- The last element with a property is found first from the right. -/
theorem find?_reverse_eq_some {α : Type} {p : α → Bool} {init tail : List α} {a : α}
    (ha : p a = true) (htail : ∀ b ∈ tail, p b = false) :
    (init ++ a :: tail).reverse.find? p = some a := by
  have hnone : tail.reverse.find? p = none := by
    rw [List.find?_eq_none]
    intro b hb
    rw [htail b (List.mem_reverse.1 hb)]
    exact Bool.false_ne_true
  rw [List.reverse_append, List.reverse_cons, List.append_assoc, List.find?_append, hnone,
    Option.none_or, List.singleton_append, List.find?_cons_of_pos ha]

/-! ### Spoofing -/

/-- Only the peer and the hops that trusted proxies vouch for decide the address of a client. -/
structure Unspoofable (settings : Settings) : Prop where
  /-- Without a trusted peer no header matters. -/
  ignored : ∀ (request : Request) (headers : List (Text × Text)),
    (∀ peer, request.peer = some peer → isTrusted peer settings.trustedProxyCidrs = false) →
      getClientIp { request with headers } settings = getClientIp request settings
  untrusted : ∀ (request : Request) (peer : ScopedAddress), request.peer = some peer →
    isTrusted peer settings.trustedProxyCidrs = false →
      getClientIp request settings = some peer.str
  /-- The rightmost untrusted address of the chain and the peer. -/
  rightmost : ∀ (request : Request) (peer : ScopedAddress) (chain init tail : List ScopedAddress)
    (a : ScopedAddress), request.peer = some peer → request.Chain chain →
      chain ++ [peer] = init ++ a :: tail → isTrusted a settings.trustedProxyCidrs = false →
        (∀ b ∈ tail, isTrusted b settings.trustedProxyCidrs = true) →
          getClientIp request settings = some a.str
  leftmost : ∀ (request : Request) (peer first : ScopedAddress) (rest : List ScopedAddress),
    request.peer = some peer → request.Chain (first :: rest) →
      (∀ b ∈ first :: rest ++ [peer], isTrusted b settings.trustedProxyCidrs = true) →
        getClientIp request settings = some first.str
  /-- What stands before the rightmost untrusted address makes no difference. -/
  prepended : ∀ (request request' : Request) (init init' tail : List ScopedAddress)
    (a : ScopedAddress), request.client = request'.client → request.Chain (init ++ a :: tail) →
      request'.Chain (init' ++ a :: tail) → isTrusted a settings.trustedProxyCidrs = false →
        (∀ b ∈ tail, isTrusted b settings.trustedProxyCidrs = true) →
          getClientIp request settings = getClientIp request' settings
  malformed : ∀ (request : Request) (peer : ScopedAddress), request.peer = some peer →
    (∀ chain, ¬request.Chain chain) → getClientIp request settings = some peer.str
  /-- Neither the header lines nor the texts of the addresses make a difference. -/
  spread : ∀ (request request' : Request) (peer : ScopedAddress), request.peer = some peer →
    request'.peer = some peer → request.hops.map parseIp = request'.hops.map parseIp →
      getClientIp request settings = getClientIp request' settings
  mapped : ∀ (value : Text) (n : ℕ) (scope : Option Text), n < 2 ^ 32 →
    scopedAddress value = some ⟨.v6 (0xFFFF * 2 ^ 32 + n), scope⟩ →
      parseIp value = some ⟨.v4 n, none⟩

theorem getClientIp_of_client {request' : Request} (huntrusted : ∀ peer, request.peer = some peer →
    isTrusted peer settings.trustedProxyCidrs = false) (hclient : request.client = request'.client) :
    getClientIp request settings = getClientIp request' settings := by
  have hsame : request.peer = request'.peer := by rw [Request.peer, Request.peer, hclient]
  cases hpeer : request.peer with
  | some peer =>
    rw [getClientIp_of_peer hpeer, getClientIp_of_peer (hsame ▸ hpeer), huntrusted peer hpeer]
    rfl
  | none =>
    rw [getClientIp, getClientIp, ← hclient]
    cases hhost : request.client with
    | none => rfl
    | some host =>
      rw [Request.peer, hhost, Option.bind_some] at hpeer
      dsimp only
      rw [hpeer]

theorem getClientIp_of_untrusted (hpeer : request.peer = some peer)
    (huntrusted : isTrusted peer settings.trustedProxyCidrs = false) :
    getClientIp request settings = some peer.str := by
  rw [getClientIp_of_peer hpeer, huntrusted]
  rfl

theorem getClientIp_of_rightmost {init tail : List ScopedAddress} {a : ScopedAddress}
    (hpeer : request.peer = some peer) (hchain : request.Chain chain)
    (hsplit : chain ++ [peer] = init ++ a :: tail)
    (ha : isTrusted a settings.trustedProxyCidrs = false)
    (htail : ∀ b ∈ tail, isTrusted b settings.trustedProxyCidrs = true) :
    getClientIp request settings = some a.str := by
  rcases Bool.eq_false_or_eq_true (isTrusted peer settings.trustedProxyCidrs) with htrusted | huntrusted
  · rw [getClientIp_of_chain hpeer htrusted hchain, hsplit, find?_reverse_eq_some]
    · rfl
    · rw [ha]
      rfl
    · intro b hb
      rw [htail b hb]
      rfl
  · -- the peer itself is the last address of the chain and the peer
    have hlast : (init ++ a :: tail).getLast? = some peer := by
      rw [← hsplit, List.getLast?_concat]
    rcases List.eq_nil_or_concat' tail with rfl | ⟨tail, b, rfl⟩
    · rw [List.getLast?_concat] at hlast
      rw [Option.some.inj hlast]
      exact getClientIp_of_untrusted hpeer huntrusted
    · rw [← List.cons_append, ← List.append_assoc, List.getLast?_concat] at hlast
      have hb := htail b (by simp)
      rw [Option.some.inj hlast, huntrusted] at hb
      cases hb

theorem getClientIp_of_malformed (hpeer : request.peer = some peer)
    (hmalformed : ∀ chain, ¬request.Chain chain) :
    getClientIp request settings = some peer.str := by
  rw [getClientIp_of_peer hpeer]
  split
  · rfl
  · split
    · rfl
    · rename_i hok
      obtain ⟨hpresent, hlimit, _⟩ := by simpa only [not_or] using hok
      cases haddresses : request.hops.mapM parseIp with
      | none => rfl
      | some chain => exact (hmalformed chain ⟨hpresent, Nat.le_of_not_lt hlimit, haddresses⟩).elim

theorem mapM_eq_mapM_id {α β : Type} (f : α → Option β) (as : List α) :
    as.mapM f = (as.map f).mapM id := by
  induction as with
  | nil => rfl
  | cons a as ih => rw [List.mapM_cons, List.map_cons, List.mapM_cons, ih]; rfl

/-- Whether a header is well formed is told by the addresses of its hops. -/
theorem Request.Chain.congr {request' : Request}
    (hsame : request.hops.map parseIp = request'.hops.map parseIp) (h : request.Chain chain) :
    request'.Chain chain := by
  have hlength : request.hops.length = request'.hops.length := by
    simpa using congrArg List.length hsame
  refine ⟨?_, hlength ▸ h.limit, ?_⟩
  · rw [ne_eq, ← List.length_eq_zero_iff, ← hlength, List.length_eq_zero_iff]
    exact h.present
  · rw [mapM_eq_mapM_id, ← hsame, ← mapM_eq_mapM_id]
    exact h.addresses

/-- The address of a client is the one that its peer and the trusted proxies make it. -/
theorem getClientIp_unspoofable (settings : Settings) : Unspoofable settings where
  ignored request headers huntrusted := by
    symm
    exact getClientIp_of_client huntrusted rfl
  untrusted request peer hpeer huntrusted := getClientIp_of_untrusted hpeer huntrusted
  rightmost request peer chain init tail a hpeer hchain hsplit ha htail :=
    getClientIp_of_rightmost hpeer hchain hsplit ha htail
  leftmost request peer first rest hpeer hchain hall := by
    have hnone : (first :: rest ++ [peer]).reverse.find?
        (!isTrusted · settings.trustedProxyCidrs) = none := by
      rw [List.find?_eq_none]
      intro b hb
      rw [hall b (List.mem_reverse.1 hb)]
      exact Bool.false_ne_true
    rw [getClientIp_of_chain hpeer (hall peer (by simp)) hchain, hnone]
    rfl
  prepended request request' init init' tail a hclient hchain hchain' ha htail := by
    have hsame : request.peer = request'.peer := by rw [Request.peer, Request.peer, hclient]
    by_cases htrusted : ∃ peer, request.peer = some peer ∧
        isTrusted peer settings.trustedProxyCidrs = true
    · obtain ⟨peer, hpeer, htrusted⟩ := htrusted
      have htail' : ∀ b ∈ tail ++ [peer], isTrusted b settings.trustedProxyCidrs = true := by
        intro b hb
        rcases List.mem_append.1 hb with hb | hb
        · exact htail b hb
        · rw [List.mem_singleton.1 hb]
          exact htrusted
      rw [getClientIp_of_rightmost hpeer hchain (List.append_assoc init _ _) ha htail',
        getClientIp_of_rightmost (hsame ▸ hpeer) hchain' (List.append_assoc init' _ _) ha htail']
    · refine getClientIp_of_client (fun peer hpeer => ?_) hclient
      rw [← Bool.not_eq_true]
      exact fun htrue => htrusted ⟨peer, hpeer, htrue⟩
  malformed request peer hpeer hmalformed := getClientIp_of_malformed hpeer hmalformed
  spread request request' peer hpeer hpeer' hsame := by
    by_cases hexists : ∃ chain, request.Chain chain
    · obtain ⟨chain, hchain⟩ := hexists
      rcases Bool.eq_false_or_eq_true (isTrusted peer settings.trustedProxyCidrs) with
        htrusted | huntrusted
      · rw [getClientIp_of_chain hpeer htrusted hchain,
          getClientIp_of_chain hpeer' htrusted (hchain.congr hsame)]
      · rw [getClientIp_of_untrusted hpeer huntrusted, getClientIp_of_untrusted hpeer' huntrusted]
    · rw [getClientIp_of_malformed hpeer fun chain hchain => hexists ⟨chain, hchain⟩,
        getClientIp_of_malformed hpeer' fun chain hchain =>
          hexists ⟨chain, hchain.congr hsame.symm⟩]
  mapped value n scope hn hvalue := by
    have hdiv : (0xFFFF * 2 ^ 32 + n) / 2 ^ 32 = 0xFFFF := by omega
    have hmod : (0xFFFF * 2 ^ 32 + n) % 2 ^ 32 = n := by omega
    rw [parseIp, hvalue, Option.map_some, ipv4Mapped]
    dsimp only
    rw [if_pos hdiv, hmod]
    rfl

example : getClientIp ⟨some (text "10.0.0.10"), [(text "x-forwarded-for", text "203.0.113.9"),
    (text "x-forwarded-for", text "198.51.100.7, 10.0.0.20")]⟩
      ⟨[text "10.0.0.0/24"], [text "10.0.0.7/24"], by decide +kernel⟩ =
        some (text "198.51.100.7") := by
  decide +kernel

end ForgejoMcp.Auth
