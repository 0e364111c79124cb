import ForgejoMcp.Python.IpAddress

/-!
# IP networks

The texts of addresses and networks, and what `ipaddress.ip_network` reads. The text of an address
or a network reads back as the address or the network.
-/

namespace Python

/-! ### Addresses with a scope -/

/-- An address with the scope of an IPv6 one. -/
structure ScopedAddress where
  address : IpAddress
  scope : Option Text
  deriving DecidableEq

/-- `_BaseV6._split_scope_id(s)[1]`. -/
def scopeOf (s : Text) : Option Text :=
  match s.partition 0x25 with
  | (_, [], _) => none
  | (_, _, scope) => some scope

/-- `IPv4Address(s)`. -/
def address4 (s : Text) : Option ScopedAddress := (ipv4Address s).map (⟨.v4 ·, none⟩)

/-- `IPv6Address(s)`. -/
def address6 (s : Text) : Option ScopedAddress := (ipv6Address s).map (⟨.v6 ·, scopeOf s⟩)

/-- `ipaddress.ip_address(s)`, `none` when it raises. -/
def scopedAddress (s : Text) : Option ScopedAddress := (address4 s).or (address6 s)

/-! ### Texts of addresses -/

/-- The digits of a number in a base, `'%d' % n` and `'%x' % n`. -/
def numeral (base n : ℕ) : Text := text (String.ofList (Nat.toDigits base n))

/-- The last places of a number in a base. -/
def places (base : ℕ) : ℕ → ℕ → List ℕ
  | 0, _ => []
  | len + 1, n => places base len (n / base) ++ [n % base]

/-- The loop variables of `_BaseV6._compress_hextets`, with `none` for `-1`. -/
structure ZeroRuns where
  bestStart : Option ℕ
  bestLen : ℕ
  start : Option ℕ
  len : ℕ

/-- An iteration of the loop. -/
def ZeroRuns.step (runs : ZeroRuns) (index : ℕ) (hextet : Text) : ZeroRuns :=
  if hextet = text "0" then
    let len := runs.len + 1
    let start := some (runs.start.getD index)
    if runs.bestLen < len then ⟨start, len, start, len⟩
    else ⟨runs.bestStart, runs.bestLen, start, len⟩
  else ⟨runs.bestStart, runs.bestLen, none, 0⟩

/-- The loop over the hextets. -/
def zeroRuns (hextets : List Text) : ZeroRuns :=
  hextets.zipIdx.foldl (fun runs hextet => runs.step hextet.2 hextet.1) ⟨none, 0, none, 0⟩

/-- `_BaseV6._compress_hextets`. -/
def compressHextets (hextets : List Text) : List Text :=
  let runs := zeroRuns hextets
  if 1 < runs.bestLen then
    let start := runs.bestStart.getD 0
    let stop := start + runs.bestLen
    let hextets := if stop = hextets.length then hextets ++ [[]] else hextets
    let hextets := hextets.take start ++ [[]] ++ hextets.drop stop
    if start = 0 then [] :: hextets else hextets
  else hextets

/-- `str(address)`. -/
def ScopedAddress.str (a : ScopedAddress) : Text :=
  match a.address with
  | .v4 n => Text.join [0x2E] ((places 256 4 n).map (numeral 10))
  | .v6 n =>
    let s := Text.join [0x3A] (compressHextets ((places 0x10000 8 n).map hex))
    match a.scope with
    | some scope => s ++ 0x25 :: scope
    | none => s

/-! ### `ip_network` -/

/-- A network: its first address and the length of its prefix. -/
structure IpNetwork where
  networkAddress : ScopedAddress
  prefixlen : ℕ
  deriving DecidableEq

/-- `address in network`. -/
def IpNetwork.contains (network : IpNetwork) (a : ScopedAddress) : Bool :=
  match network.networkAddress.address, a.address with
  | .v4 m, .v4 n => Network.contains 32 ⟨m, network.prefixlen⟩ n
  | .v6 m, .v6 n => Network.contains 128 ⟨m, network.prefixlen⟩ n
  | _, _ => false

/-- `str(network)`. -/
def IpNetwork.str (network : IpNetwork) : Text :=
  network.networkAddress.str ++ 0x2F :: numeral 10 network.prefixlen

/-- `_prefix_from_prefix_string`, `none` when it raises. -/
def prefixFromPrefixString (bits : ℕ) (s : Text) : Option ℕ :=
  if 4300 < s.length then none else (s.number 10).filter (· ≤ bits)

/-- `_prefix_from_ip_int`, `none` when it raises: as many ones as the prefix is long, then zeros. -/
def prefixFromIpInt (n : ℕ) : Option ℕ :=
  (List.range 33).find? fun prefixlen => n = 2 ^ 32 - 2 ^ (32 - prefixlen)

/-- `_prefix_from_ip_string`: a netmask or a hostmask. -/
def prefixFromIpString (s : Text) : Option ℕ := do
  let n ← ipv4Address s
  (prefixFromIpInt n).or (prefixFromIpInt (2 ^ 32 - 1 - n))

/-- `_BaseV4._make_netmask`. -/
def makeNetmask4 (s : Text) : Option ℕ := (prefixFromPrefixString 32 s).or (prefixFromIpString s)

/-- `_BaseV6._make_netmask`. -/
def makeNetmask6 (s : Text) : Option ℕ := prefixFromPrefixString 128 s

/-- The network of an address, `none` when `strict` and the address has bits after the prefix; these
are dropped else, and the scope with them. -/
def networkOf (strict : Bool) (a : ScopedAddress) (prefixlen : ℕ) : Option IpNetwork :=
  let masked (bits n : ℕ) : ℕ := n / 2 ^ (bits - prefixlen) * 2 ^ (bits - prefixlen)
  let address : IpAddress := match a.address with
    | .v4 n => .v4 (masked 32 n)
    | .v6 n => .v6 (masked 128 n)
  if address = a.address then some ⟨a, prefixlen⟩
  else if strict then none
  else some ⟨⟨address, none⟩, prefixlen⟩

/-- `IPv4Network(s, strict)` and `IPv6Network(s, strict)`. -/
def readNetwork (parse : Text → Option ScopedAddress) (makeNetmask : Text → Option ℕ) (bits : ℕ)
    (strict : Bool) (s : Text) : Option IpNetwork :=
  match s.split 0x2F with
  | [address] => do networkOf strict (← parse address) bits
  | [address, mask] => do networkOf strict (← parse address) (← makeNetmask mask)
  | _ => none

/-- `ipaddress.ip_network(s, strict)`, `none` when it raises. -/
def ipNetwork (strict : Bool) (s : Text) : Option IpNetwork :=
  (readNetwork address4 makeNetmask4 32 strict s).or
    (readNetwork address6 makeNetmask6 128 strict s)

/-! ### Numerals -/

variable {base n : ℕ} {s : Text}

theorem numeral_eq (hbase : 1 < base) : numeral base n =
    if n < base then [Fin.ofNat _ (Nat.digitChar n).toNat]
    else numeral base (n / base) ++ [Fin.ofNat _ (Nat.digitChar (n % base)).toNat] := by
  rw [numeral, Nat.toDigits_eq_if hbase]
  split
  · simp [text]
  · simp [text, numeral]

theorem digit?_digitChar : ∀ d < 16,
    CodePoint.digit? (Fin.ofNat _ (Nat.digitChar d).toNat) = some d := by
  decide

theorem numeral_ne_nil : numeral base n ≠ [] := by
  simp [numeral, text, Nat.toDigits_ne_nil]

theorem length_numeral_le {k : ℕ} (hbase : 1 < base) (hk : 0 < k) (h : n < base ^ k) :
    (numeral base n).length ≤ k := by
  simpa [numeral, text] using (Nat.length_toDigits_le_iff hbase hk).2 h

/-- The step of `Text.number`. -/
theorem number_append_digit {c : CodePoint} {d : ℕ} (hs : s.number base = some n)
    (hc : c.digit? = some d) (hd : d < base) : (s ++ [c]).number base = some (base * n + d) := by
  rw [Text.number] at hs ⊢
  split at hs
  · cases hs
  · rw [if_neg (by simp), List.foldlM_append, hs]
    simp [hc, hd]

/-- A numeral reads back as its number. -/
theorem number_numeral (hbase : 1 < base) (hle : base ≤ 16) :
    (numeral base n).number base = some n := by
  induction n using Nat.strong_induction_on with
  | _ n ih =>
    rw [numeral_eq hbase]
    split
    · rename_i hn
      rw [Text.number, if_neg (by exact Bool.false_ne_true), List.foldlM_cons,
        digit?_digitChar n (by omega)]
      simp only [Option.bind_eq_bind, Option.bind_some, if_pos hn, List.foldlM_nil, Option.pure_def,
        Nat.mul_zero, Nat.zero_add]
    · rename_i hn
      have hmod : n % base < base := Nat.mod_lt _ (by omega)
      rw [number_append_digit (ih _ (Nat.div_lt_self (by omega) hbase))
        (digit?_digitChar _ (by omega)) hmod, Nat.div_add_mod]

theorem mem_numeral (hbase : 1 < base) {c : CodePoint} (hc : c ∈ numeral base n) :
    ∃ d < base, c = Fin.ofNat _ (Nat.digitChar d).toNat := by
  induction n using Nat.strong_induction_on with
  | _ n ih =>
    rw [numeral_eq hbase] at hc
    split at hc
    · rename_i hn
      exact ⟨n, hn, List.mem_singleton.1 hc⟩
    · rename_i hn
      rcases List.mem_append.1 hc with hc | hc
      · exact ih _ (Nat.div_lt_self (by omega) hbase) hc
      · exact ⟨n % base, Nat.mod_lt _ (by omega), List.mem_singleton.1 hc⟩

theorem not_mem_numeral (hbase : 1 < base) (hle : base ≤ 16) {c : CodePoint}
    (hc : c.digit? = none) : c ∉ numeral base n := by
  intro hmem
  obtain ⟨d, hd, rfl⟩ := mem_numeral hbase hmem
  rw [digit?_digitChar d (by omega)] at hc
  cases hc

/-! ### Places -/

theorem length_places (base len n : ℕ) : (places base len n).length = len := by
  induction len generalizing n with
  | zero => rfl
  | succ len ih => rw [places, List.length_append, ih, List.length_singleton]

theorem lt_of_mem_places {len d : ℕ} (hbase : 0 < base) (hd : d ∈ places base len n) :
    d < base := by
  induction len generalizing n with
  | zero => exact (List.not_mem_nil hd).elim
  | succ len ih =>
    rcases List.mem_append.1 hd with hd | hd
    · exact ih hd
    · rw [List.mem_singleton.1 hd]
      exact Nat.mod_lt _ hbase

theorem ofDigits_concat (digits : List ℕ) (d : ℕ) :
    ofDigits base (digits ++ [d]) = base * ofDigits base digits + d := by
  rw [ofDigits, List.foldl_append, List.foldl_cons, List.foldl_nil, ofDigits]

theorem ofDigits_places (len : ℕ) (hn : n < base ^ len) : ofDigits base (places base len n) = n := by
  induction len generalizing n with
  | zero =>
    have hzero : n = 0 := by simpa using hn
    rw [hzero]
    rfl
  | succ len ih =>
    have hdiv : n / base < base ^ len := Nat.div_lt_of_lt_mul (by rwa [← Nat.pow_succ'])
    rw [places, ofDigits_concat, ih hdiv, Nat.div_add_mod]

theorem ofDigits_lt {digits : List ℕ} (h : ∀ d ∈ digits, d < base) :
    ofDigits base digits < base ^ digits.length := by
  induction digits using List.reverseRecOn with
  | nil => exact Nat.one_pos
  | append_singleton digits d ih =>
    have hinit : ofDigits base digits < base ^ digits.length :=
      ih fun e he => h e (List.mem_append_left _ he)
    have hd : d < base := h d (by simp)
    calc ofDigits base (digits ++ [d]) = base * ofDigits base digits + d := ofDigits_concat digits d
      _ < base * (ofDigits base digits + 1) := by rw [Nat.mul_succ]; omega
      _ ≤ base * base ^ digits.length := Nat.mul_le_mul_left _ hinit
      _ = base ^ (digits ++ [d]).length := by rw [List.length_append, List.length_singleton, Nat.pow_succ']

/-! ### Compressed hextets -/

/-- What the loop of `_compress_hextets` keeps: a run of zeros up to here, and one it has seen. -/
structure ZeroRuns.Of (runs : ZeroRuns) (hextets : List Text) : Prop where
  current : ∃ hi, hextets = hi ++ List.replicate runs.len (text "0") ∧
    runs.start.getD hextets.length = hi.length
  best : ∃ hi lo, hextets = hi ++ List.replicate runs.bestLen (text "0") ++ lo ∧
    runs.bestStart.getD 0 = hi.length

theorem ZeroRuns.Of.step {runs : ZeroRuns} {hextets : List Text} (h : runs.Of hextets)
    (hextet : Text) : (runs.step hextets.length hextet).Of (hextets ++ [hextet]) := by
  obtain ⟨hi, hcurrent, hstart⟩ := h.current
  obtain ⟨bestHi, bestLo, hbest, hbestStart⟩ := h.best
  have hkept : hextets ++ [hextet] =
      bestHi ++ List.replicate runs.bestLen (text "0") ++ (bestLo ++ [hextet]) := by
    rw [← List.append_assoc, ← hbest]
  rw [ZeroRuns.step]
  split
  · rename_i hzero
    have hlonger : hextets ++ [hextet] = hi ++ List.replicate (runs.len + 1) (text "0") := by
      rw [List.replicate_succ', ← List.append_assoc, ← hcurrent, hzero]
    dsimp only
    split
    · exact ⟨⟨hi, hlonger, hstart⟩, hi, [], by rw [List.append_nil]; exact hlonger, hstart⟩
    · exact ⟨⟨hi, hlonger, hstart⟩, bestHi, _, hkept, hbestStart⟩
  · exact ⟨⟨_, (List.append_nil _).symm, rfl⟩, bestHi, _, hkept, hbestStart⟩

theorem zeroRuns_concat (hextets : List Text) (hextet : Text) :
    zeroRuns (hextets ++ [hextet]) = (zeroRuns hextets).step hextets.length hextet := by
  simp [zeroRuns, List.zipIdx_append]

theorem zeroRuns_of (hextets : List Text) : (zeroRuns hextets).Of hextets := by
  induction hextets using List.reverseRecOn with
  | nil => exact ⟨⟨[], rfl, rfl⟩, [], [], rfl, rfl⟩
  | append_singleton hextets hextet ih =>
    rw [zeroRuns_concat]
    exact ih.step hextet

/-- A side of the empty hextet; one that is empty itself adds another empty one. -/
def sideOfZeros (side : List Text) : List Text := if side = [] then [[]] else side

/-- Either no hextet is left out or a run of at least two zeros. -/
theorem compressHextets_cases (hextets : List Text) : compressHextets hextets = hextets ∨
    ∃ hi lo k, 2 ≤ k ∧ hextets = hi ++ List.replicate k (text "0") ++ lo ∧
      compressHextets hextets = sideOfZeros hi ++ [[]] ++ sideOfZeros lo := by
  obtain ⟨hi, lo, hextets_eq, hstart⟩ := (zeroRuns_of hextets).best
  rw [compressHextets]
  dsimp only
  split
  · rename_i hlong
    refine .inr ⟨hi, lo, _, hlong, hextets_eq, ?_⟩
    generalize (zeroRuns hextets).bestLen = k at *
    have hzeros : (hi ++ List.replicate k (text "0")).length = hi.length + k := by simp
    have htake (end' : List Text) :
        (hi ++ List.replicate k (text "0") ++ end').take hi.length = hi := by
      rw [List.append_assoc, List.take_left]
    have hdrop (end' : List Text) :
        (hi ++ List.replicate k (text "0") ++ end').drop (hi.length + k) = end' := by
      rw [← hzeros, List.drop_left]
    have hlo : hi.length + k = hextets.length ↔ lo = [] := by
      rw [hextets_eq, List.length_append, hzeros, ← List.length_eq_zero_iff]
      omega
    rw [hstart, hextets_eq]
    rw [hextets_eq] at hlo
    simp only [hlo, List.length_eq_zero_iff, sideOfZeros]
    by_cases hlonil : lo = []
    · rw [if_pos hlonil, if_pos hlonil, hlonil, List.append_nil, htake, hdrop]
      split
      · rename_i hnil
        rw [hnil]
        rfl
      · rfl
    · rw [if_neg hlonil, if_neg hlonil, htake, hdrop]
      split
      · rename_i hnil
        rw [hnil]
        rfl
      · rfl
  · exact .inl rfl

theorem length_sideOfZeros (side : List Text) :
    1 ≤ (sideOfZeros side).length ∧ (sideOfZeros side).length ≤ side.length + 1 := by
  rw [sideOfZeros]
  split
  · exact ⟨le_rfl, Nat.le_add_left _ _⟩
  · rename_i hne
    exact ⟨List.length_pos_iff.2 hne, Nat.le_succ _⟩

theorem mem_of_mem_sideOfZeros {side : List Text} (h : s ∈ sideOfZeros side) :
    s = [] ∨ s ∈ side := by
  rw [sideOfZeros] at h
  split at h
  · exact .inl (List.mem_singleton.1 h)
  · exact .inr h

theorem mem_compressHextets {hextets : List Text} (h : s ∈ compressHextets hextets) :
    s = [] ∨ s ∈ hextets := by
  rcases compressHextets_cases hextets with heq | ⟨hi, lo, k, _, hzeros, heq⟩
  · rw [heq] at h
    exact .inr h
  · rw [heq] at h
    rw [hzeros]
    simp only [List.mem_append, List.mem_singleton] at h ⊢
    rcases h with (h | h) | h
    · exact (mem_of_mem_sideOfZeros h).imp_right fun h => .inl (.inl h)
    · exact .inl h
    · exact (mem_of_mem_sideOfZeros h).imp_right fun h => .inr h

theorem two_le_length_compressHextets {hextets : List Text} (h : 2 ≤ hextets.length) :
    2 ≤ (compressHextets hextets).length := by
  rcases compressHextets_cases hextets with heq | ⟨hi, lo, k, _, _, heq⟩
  · rw [heq]
    exact h
  · rw [heq, List.length_append, List.length_append, List.length_singleton]
    have hhi := length_sideOfZeros hi
    omega

/-! ### Reading hextets -/

theorem filter_range_eq_singleton {p : ℕ → Bool} {n i : ℕ} (hi : i < n)
    (h : ∀ j < n, p j = true ↔ j = i) : (List.range n).filter p = [i] := by
  have hcongr : (List.range n).filter p = (List.range n).filter (· == i) :=
    List.filter_congr fun j hj => by
      rw [Bool.eq_iff_iff, h j (List.mem_range.1 hj), beq_iff_eq]
  rw [hcongr, List.filter_beq,
    List.nodup_iff_count_eq_one.1 List.nodup_range i (List.mem_range.2 hi)]
  rfl

theorem getD_middle_eq_nil_iff {a b : Text} {hi lo : List Text} (hhi : ∀ s ∈ hi, s ≠ [])
    (hlo : ∀ s ∈ lo, s ≠ []) {j : ℕ} (hj : j < (hi ++ [] :: lo).length) :
    (a :: (hi ++ [] :: lo) ++ [b]).getD (j + 1) [] = [] ↔ j = hi.length := by
  have hcut : (a :: (hi ++ [] :: lo) ++ [b]).getD (j + 1) [] = (hi ++ [] :: lo)[j] := by
    rw [List.cons_append, List.getD_cons_succ, List.getD_append _ _ _ _ hj,
      List.getD_eq_getElem _ _ hj]
  rw [hcut, List.getElem_append]
  split
  · rename_i hlt
    exact ⟨fun hempty => (hhi _ (List.getElem_mem hlt) hempty).elim, fun h => by omega⟩
  · rename_i hle
    rcases Nat.eq_or_lt_of_le (Nat.le_of_not_lt hle) with rfl | hlt
    · simp only [Nat.sub_self, List.getElem_cons_zero]
    · obtain ⟨m, hm⟩ : ∃ m, j - hi.length = m + 1 := ⟨j - hi.length - 1, by omega⟩
      have hlo' : m < lo.length := by simp at hj; omega
      simp only [hm, List.getElem_cons_succ]
      exact ⟨fun hempty => (hlo _ (List.getElem_mem hlo') hempty).elim, fun h => by omega⟩

/-- The places of the empty parts that are not at an end. -/
def skips (parts : List Text) : List ℕ :=
  (List.range parts.length).filter fun i => 0 < i ∧ i + 1 < parts.length ∧ parts.getD i [] = []

theorem skips_eq_nil {parts : List Text} (h : ∀ s ∈ parts, s ≠ []) : skips parts = [] := by
  rw [skips, List.filter_eq_nil_iff]
  intro i hi hskip
  have hlt : i < parts.length := List.mem_range.1 hi
  have hempty := (of_decide_eq_true hskip).2.2
  rw [List.getD_eq_getElem _ _ hlt] at hempty
  exact h _ (List.getElem_mem hlt) hempty

theorem sideOfZeros_cons {side : List Text} (h : ∀ s ∈ side, s ≠ []) :
    ∃ a rest, sideOfZeros side = a :: rest ∧ ∀ s ∈ rest, s ≠ [] := by
  rw [sideOfZeros]
  cases side with
  | nil => exact ⟨[], [], rfl, fun s hs => (List.not_mem_nil hs).elim⟩
  | cons a rest => exact ⟨a, rest, rfl, fun s hs => h s (List.mem_cons_of_mem _ hs)⟩

theorem sideOfZeros_concat {side : List Text} (h : ∀ s ∈ side, s ≠ []) :
    ∃ init b, sideOfZeros side = init ++ [b] ∧ ∀ s ∈ init, s ≠ [] := by
  rw [sideOfZeros]
  rcases List.eq_nil_or_concat' side with rfl | ⟨init, b, rfl⟩
  · exact ⟨[], [], rfl, fun s hs => (List.not_mem_nil hs).elim⟩
  · exact ⟨init, b, if_neg (by simp), fun s hs => h s (List.mem_append_left _ hs)⟩

theorem skips_of_zeros {hi lo : List Text} (hhi : ∀ s ∈ hi, s ≠ []) (hlo : ∀ s ∈ lo, s ≠ []) :
    skips (sideOfZeros hi ++ [[]] ++ sideOfZeros lo) = [(sideOfZeros hi).length] := by
  obtain ⟨a, rest, hhead, hrest⟩ := sideOfZeros_cons hhi
  obtain ⟨init, b, hlast, hinit⟩ := sideOfZeros_concat hlo
  have hparts : sideOfZeros hi ++ [[]] ++ sideOfZeros lo = a :: (rest ++ [] :: init) ++ [b] := by
    simp [hhead, hlast]
  rw [hparts, hhead, skips]
  refine filter_range_eq_singleton (by simp) fun i hi' => ?_
  rw [decide_eq_true_eq]
  cases i with
  | zero => simp
  | succ j =>
    by_cases hj : j < (rest ++ [] :: init).length
    · rw [getD_middle_eq_nil_iff hrest hinit hj]
      simp at hj ⊢
      omega
    · simp at hj hi' ⊢
      omega

theorem withIpv4Suffix_eq_self {parts : List Text} (h : ∀ s ∈ parts, (0x2E : CodePoint) ∉ s) :
    withIpv4Suffix parts = some parts := by
  rw [withIpv4Suffix]
  refine if_neg fun hdot => ?_
  rcases List.eq_nil_or_concat' parts with rfl | ⟨init, last, rfl⟩
  · exact List.not_mem_nil hdot
  · rw [List.getLastD_concat] at hdot
    exact h last (by simp) hdot

/-- `_ip_int_from_string` of a text without a dotted quad. -/
theorem ipv6Int_of_split {s : Text} {parts : List Text} (hsplit : s.split 0x3A = parts)
    (hmin : 3 ≤ parts.length) (hmax : parts.length ≤ 9)
    (hdot : ∀ s ∈ parts, (0x2E : CodePoint) ∉ s) :
    ipv6Int s = match skips parts with
      | [] => if parts.length ≠ 8 then none else (parts.mapM parseHextet).map (ofDigits 0x10000)
      | [i] =>
        (sideOfSkip (parts.take i) parts.head?).bind fun hi =>
          (sideOfSkip (parts.drop (i + 1)) parts.getLast?).bind fun lo =>
            if 8 ≤ hi.length + lo.length then none
            else
              ((hi ++ List.replicate (8 - (hi.length + lo.length)) (text "0") ++ lo).mapM
                parseHextet).map (ofDigits 0x10000)
      | _ => none := by
  rw [ipv6Int, hsplit]
  simp only [withIpv4Suffix_eq_self hdot]
  rw [if_neg (by omega)]
  simp only [Option.bind_eq_bind, Option.bind_some]
  refine (if_neg (by omega)).trans ?_
  rfl

theorem sideOfSkip_head? {side rest : List Text} (h : ∀ s ∈ side, s ≠ []) :
    sideOfSkip (sideOfZeros side) (sideOfZeros side ++ rest).head? = some side := by
  rw [sideOfZeros, sideOfSkip]
  cases side with
  | nil => rfl
  | cons a side => exact if_neg fun heq => h a List.mem_cons_self (Option.some.inj heq)

theorem sideOfSkip_getLast? {side rest : List Text} (h : ∀ s ∈ side, s ≠ []) :
    sideOfSkip (sideOfZeros side) (rest ++ sideOfZeros side).getLast? = some side := by
  rw [sideOfZeros, sideOfSkip]
  rcases List.eq_nil_or_concat' side with rfl | ⟨init, b, rfl⟩
  · simp
  · have hb : b ≠ [] := h b (by simp)
    simp [hb]

theorem parseHextet_hex (hn : n < 0x10000) : parseHextet (hex n) = some n := by
  have hlength : (numeral 16 n).length ≤ 4 := length_numeral_le (by omega) (by omega) hn
  rw [parseHextet, hex, ← numeral, if_neg (by omega)]
  exact number_numeral (by omega) le_rfl

theorem mapM_map_eq_some {α β : Type} {f : α → β} {g : β → Option α} {as : List α}
    (h : ∀ a ∈ as, g (f a) = some a) : (as.map f).mapM g = some as := by
  induction as with
  | nil => rfl
  | cons a as ih =>
    rw [List.map_cons, List.mapM_cons, h a List.mem_cons_self,
      ih fun b hb => h b (List.mem_cons_of_mem _ hb)]
    rfl

/-- The compressed hextets of an address read back as the address. -/
theorem ipv6Int_compressHextets (hn : n < 2 ^ 128) :
    ipv6Int (Text.join [0x3A] (compressHextets ((places 0x10000 8 n).map hex))) = some n := by
  have hread : ((places 0x10000 8 n).map hex).mapM parseHextet = some (places 0x10000 8 n) :=
    mapM_map_eq_some fun d hd => parseHextet_hex (lt_of_mem_places (by omega) hd)
  have hback : ofDigits 0x10000 (places 0x10000 8 n) = n := ofDigits_places 8 hn
  have hlength : ((places 0x10000 8 n).map hex).length = 8 := by rw [List.length_map, length_places]
  have hclean : ∀ s ∈ (places 0x10000 8 n).map hex,
      s ≠ [] ∧ (0x3A : CodePoint) ∉ s ∧ (0x2E : CodePoint) ∉ s := by
    intro s hs
    obtain ⟨d, _, rfl⟩ := List.mem_map.1 hs
    exact ⟨numeral_ne_nil, not_mem_numeral (by omega) le_rfl (by decide),
      not_mem_numeral (by omega) le_rfl (by decide)⟩
  rcases compressHextets_cases ((places 0x10000 8 n).map hex) with heq |
    ⟨hi, lo, k, hk, hzeros, heq⟩
  · have hsplit := Text.split_join_iff.2
      ⟨List.ne_nil_of_length_pos (by omega), fun s hs => (hclean s hs).2.1⟩
    rw [heq, ipv6Int_of_split hsplit (by omega) (by omega) fun s hs => (hclean s hs).2.2,
      skips_eq_nil fun s hs => (hclean s hs).1]
    dsimp only
    rw [if_neg (not_not.2 hlength), hread, Option.map_some, hback]
  · rw [hzeros] at hread hlength hclean
    rw [List.length_append, List.length_append, List.length_replicate] at hlength
    have hhi : ∀ s ∈ hi, s ≠ [] := fun s hs => (hclean s (by simp [hs])).1
    have hlo : ∀ s ∈ lo, s ≠ [] := fun s hs => (hclean s (by simp [hs])).1
    have hparts : ∀ s ∈ sideOfZeros hi ++ [[]] ++ sideOfZeros lo,
        (0x3A : CodePoint) ∉ s ∧ (0x2E : CodePoint) ∉ s := by
      intro s hs
      rw [← heq] at hs
      rcases mem_compressHextets hs with rfl | hs
      · exact ⟨List.not_mem_nil, List.not_mem_nil⟩
      · rw [hzeros] at hs
        exact (hclean s hs).2
    have hside := length_sideOfZeros hi
    have hside' := length_sideOfZeros lo
    have htotal : (sideOfZeros hi ++ [[]] ++ sideOfZeros lo).length =
        (sideOfZeros hi).length + 1 + (sideOfZeros lo).length := by
      rw [List.length_append, List.length_append, List.length_singleton]
    have hsplit := Text.split_join_iff.2
      ⟨List.ne_nil_of_length_pos (by omega), fun s hs => (hparts s hs).1⟩
    have hdrop : (sideOfZeros hi ++ [[]] ++ sideOfZeros lo).drop ((sideOfZeros hi).length + 1) =
        sideOfZeros lo := List.drop_left' (by simp)
    rw [heq, ipv6Int_of_split hsplit (by omega) (by omega) fun s hs => (hparts s hs).2,
      skips_of_zeros hhi hlo]
    dsimp only
    rw [hdrop, sideOfSkip_getLast? hlo, List.append_assoc, List.take_left, sideOfSkip_head? hhi,
      Option.bind_some, Option.bind_some, if_neg (by omega),
      show 8 - (hi.length + lo.length) = k by omega, hread, Option.map_some, hback]

/-! ### Reading addresses -/

/-- The values an address object holds. -/
def ScopedAddress.Valid (a : ScopedAddress) : Prop :=
  match a.address with
  | .v4 n => n < 2 ^ 32 ∧ a.scope = none
  | .v6 n => n < 2 ^ 128 ∧
    ∀ scope ∈ a.scope, scope ≠ [] ∧ (0x25 : CodePoint) ∉ scope ∧ (0x2F : CodePoint) ∉ scope

theorem ipv4Address_lt (h : ipv4Address s = some n) : n < 2 ^ 32 := by
  rw [ipv4Address] at h
  split at h
  · cases h
  · rename_i hfour
    obtain ⟨octets, hoctets, rfl⟩ := Option.map_eq_some_iff.1 h
    obtain ⟨_, hlength, hle⟩ := mapM_cNumber_of_parseOctet hoctets
    have hlt : ofDigits 256 octets < 256 ^ octets.length :=
      ofDigits_lt fun d hd => Nat.lt_succ_of_le (hle d hd)
    rwa [hlength, not_not.1 hfour] at hlt

/-- The fold of `Text.number` from the number read so far. -/
theorem number_fold_lt {m : ℕ} (h : (s.foldlM (fun n c => do
    let d ← CodePoint.digit? c
    if d < base then some (base * n + d) else none) m) = some n) :
    n < base ^ s.length * (m + 1) := by
  induction s generalizing m with
  | nil =>
    cases h
    simp
  | cons c s ih =>
    rw [List.foldlM_cons] at h
    obtain ⟨m', hm', h⟩ := Option.bind_eq_some_iff.1 h
    obtain ⟨d, _, hm'⟩ := Option.bind_eq_some_iff.1 hm'
    split at hm'
    · rename_i hd
      cases hm'
      calc n < base ^ s.length * (base * m + d + 1) := ih h
        _ ≤ base ^ s.length * (base * (m + 1)) := Nat.mul_le_mul_left _ (by rw [Nat.mul_succ]; omega)
        _ = base ^ (c :: s).length * (m + 1) := by
          rw [List.length_cons, Nat.pow_succ, Nat.mul_assoc]
    · cases hm'

theorem number_lt (h : s.number base = some n) : n < base ^ s.length := by
  rw [Text.number] at h
  split at h
  · cases h
  · simpa using number_fold_lt h

theorem parseHextet_lt (h : parseHextet s = some n) : n < 0x10000 := by
  rw [parseHextet] at h
  split at h
  · cases h
  · rename_i hle
    calc n < 16 ^ s.length := number_lt h
      _ ≤ 16 ^ 4 := Nat.pow_le_pow_right (by omega) (Nat.le_of_not_lt hle)

theorem forall₂_of_mapM {α β : Type} {f : α → Option β} {as : List α} {bs : List β}
    (h : as.mapM f = some bs) : List.Forall₂ (fun a b => f a = some b) as bs := by
  induction as generalizing bs with
  | nil =>
    cases h
    exact .nil
  | cons a as ih =>
    rw [List.mapM_cons] at h
    obtain ⟨b, hb, h⟩ := Option.bind_eq_some_iff.1 h
    obtain ⟨bs, hbs, h⟩ := Option.bind_eq_some_iff.1 h
    cases h
    exact .cons hb (ih hbs)

theorem mapM_parseHextet_lt {hextets : List Text}
    (h : (hextets.mapM parseHextet).map (ofDigits 0x10000) = some n) (hlength : hextets.length = 8) :
    n < 2 ^ 128 := by
  obtain ⟨digits, hdigits, rfl⟩ := Option.map_eq_some_iff.1 h
  have hread := forall₂_of_mapM hdigits
  have hdigit : ∀ d ∈ digits, d < 0x10000 := by
    intro d hd
    obtain ⟨i, hi, rfl⟩ := List.getElem_of_mem hd
    exact parseHextet_lt (hread.get (by rwa [hread.length_eq]) hi)
  have hlt := ofDigits_lt hdigit
  rwa [← hread.length_eq, hlength] at hlt

theorem ipv6Int_lt (h : ipv6Int s = some n) : n < 2 ^ 128 := by
  rw [ipv6Int] at h
  simp only [Option.bind_eq_bind] at h
  split at h
  · cases h
  obtain ⟨parts, _, h⟩ := Option.bind_eq_some_iff.1 h
  split at h
  · cases h
  split at h
  · split at h
    · cases h
    · rename_i hlength
      exact mapM_parseHextet_lt h (not_not.1 hlength)
  · obtain ⟨hi, _, h⟩ := Option.bind_eq_some_iff.1 h
    obtain ⟨lo, _, h⟩ := Option.bind_eq_some_iff.1 h
    split at h
    · cases h
    · rename_i hlength
      refine mapM_parseHextet_lt h ?_
      simp
      omega
  · cases h

theorem scopeOf_cases (s : Text) : scopeOf s = none ∧ (0x25 : CodePoint) ∉ s ∨
    ∃ head scope, (0x25 : CodePoint) ∉ head ∧ s = head ++ 0x25 :: scope ∧
      scopeOf s = some scope := by
  rw [scopeOf]
  rcases Text.partition_cases s 0x25 with ⟨hmem, hpart⟩ | ⟨head, scope, hhead, hs, hpart⟩
  · rw [hpart]
    exact .inl ⟨rfl, hmem⟩
  · rw [hpart]
    exact .inr ⟨head, scope, hhead, hs, rfl⟩

theorem valid_of_address4 {a : ScopedAddress} (h : address4 s = some a) : a.Valid := by
  obtain ⟨n, hn, rfl⟩ := Option.map_eq_some_iff.1 h
  exact ⟨ipv4Address_lt hn, rfl⟩

theorem valid_of_address6 {a : ScopedAddress} (h : address6 s = some a) : a.Valid := by
  obtain ⟨n, hn, rfl⟩ := Option.map_eq_some_iff.1 h
  rw [ipv6Address] at hn
  dsimp only at hn
  split at hn
  · cases hn
  · rename_i hok
    obtain ⟨hslash, hpercent⟩ := not_or.1 hok
    refine ⟨ipv6Int_lt hn, fun scope hscope => ?_⟩
    rcases scopeOf_cases s with ⟨hnone, _⟩ | ⟨head, scope', hhead, rfl, hsome⟩
    · dsimp only at hscope
      rw [hnone] at hscope
      cases hscope
    · dsimp only at hscope
      rw [hsome, Option.mem_some_iff] at hscope
      rw [Text.partition_append_cons hhead] at hpercent
      subst hscope
      have hbad : ¬(scope' = [] ∨ (0x25 : CodePoint) ∈ scope') :=
        fun hbad => hpercent ⟨List.cons_ne_nil _ _, hbad⟩
      exact ⟨(not_or.1 hbad).1, (not_or.1 hbad).2, fun hmem => hslash (by simp [hmem])⟩

/-- The text of an IPv6 address without its scope. -/
def text6 (n : ℕ) : Text := Text.join [0x3A] (compressHextets ((places 0x10000 8 n).map hex))

theorem not_mem_text6 {c : CodePoint} (hc : c.digit? = none) (hcolon : c ≠ 0x3A) : c ∉ text6 n := by
  intro hmem
  rcases Text.mem_join hmem with hmem | ⟨s, hs, hmem⟩
  · exact hcolon (List.mem_singleton.1 hmem)
  · rcases mem_compressHextets hs with rfl | hs
    · exact List.not_mem_nil hmem
    · obtain ⟨d, _, rfl⟩ := List.mem_map.1 hs
      exact not_mem_numeral (by omega) le_rfl hc hmem

theorem colon_mem_text6 : (0x3A : CodePoint) ∈ text6 n := by
  have hlength : 2 ≤ (compressHextets ((places 0x10000 8 n).map hex)).length :=
    two_le_length_compressHextets (by rw [List.length_map, length_places]; omega)
  rw [text6]
  match compressHextets ((places 0x10000 8 n).map hex), hlength with
  | s :: t :: parts, _ => simp [Text.join]

theorem digit?_of_mem_number (h : s.number base = some n) : ∀ c ∈ s, c.digit? ≠ none := by
  rw [Text.number] at h
  split at h
  · cases h
  · generalize 0 = m at h
    induction s generalizing m with
    | nil => exact fun c hc => (List.not_mem_nil hc).elim
    | cons d s ih =>
      rw [List.foldlM_cons] at h
      obtain ⟨m', hm', h⟩ := Option.bind_eq_some_iff.1 h
      obtain ⟨value, hvalue, _⟩ := Option.bind_eq_some_iff.1 hm'
      refine List.forall_mem_cons.2 ⟨by rw [hvalue]; exact Option.some_ne_none _, ?_⟩
      cases s with
      | nil => exact fun c hc => (List.not_mem_nil hc).elim
      | cons e s => exact ih (by simp) _ h

/-- A dotted quad holds digits and dots. -/
theorem ipv4Address_chars (h : ipv4Address s = some n) : ∀ c ∈ s, c = 0x2E ∨ c.digit? ≠ none := by
  intro c hc
  rw [ipv4Address] at h
  split at h
  · cases h
  · obtain ⟨octets, hoctets, _⟩ := Option.map_eq_some_iff.1 h
    have hjoin : Text.join [0x2E] (s.split 0x2E) = s := by
      rw [Text.join_eq_intercalate]
      exact List.intercalate_splitOn _
    rw [← hjoin] at hc
    rcases Text.mem_join hc with hc | ⟨octet, hoctet, hc⟩
    · exact .inl (List.mem_singleton.1 hc)
    · obtain ⟨i, hi, rfl⟩ := List.getElem_of_mem hoctet
      have hread := forall₂_of_mapM hoctets
      have hparse := hread.get hi (by rwa [← hread.length_eq])
      rw [parseOctet] at hparse
      split at hparse
      · cases hparse
      · exact .inr (digit?_of_mem_number (Option.filter_eq_some_iff.1 hparse).1 c hc)

theorem ipv4Address_of_colon (h : (0x3A : CodePoint) ∈ s) : ipv4Address s = none := by
  rw [Option.eq_none_iff_forall_ne_some]
  intro n hn
  rcases ipv4Address_chars hn _ h with hdot | hdigit
  · exact absurd hdot (by decide)
  · exact hdigit (by decide)

theorem address6_str {scope : Option Text} (hn : n < 2 ^ 128)
    (hscope : ∀ z ∈ scope, z ≠ [] ∧ (0x25 : CodePoint) ∉ z ∧ (0x2F : CodePoint) ∉ z) :
    address6 (ScopedAddress.str ⟨.v6 n, scope⟩) = some ⟨.v6 n, scope⟩ := by
  have hread : ipv6Int (text6 n) = some n := ipv6Int_compressHextets hn
  have hpercent : (0x25 : CodePoint) ∉ text6 n := not_mem_text6 (by decide) (by decide)
  have hslash : (0x2F : CodePoint) ∉ text6 n := not_mem_text6 (by decide) (by decide)
  cases scope with
  | none =>
    change address6 (text6 n) = _
    have hpart := Text.partition_of_not_mem hpercent
    rw [address6, ipv6Address, scopeOf, hpart]
    dsimp only
    rw [if_neg (by simp [hslash]), hread]
    rfl
  | some z =>
    change address6 (text6 n ++ 0x25 :: z) = _
    obtain ⟨hne, hz, hz'⟩ := hscope z rfl
    have hpart := Text.partition_append_cons hpercent z
    rw [address6, ipv6Address, scopeOf, hpart]
    dsimp only
    rw [if_neg (by simp [hslash, hne, hz, hz']), hread]
    rfl

theorem parseOctet_numeral : ∀ d < 256, parseOctet (numeral 10 d) = some d := by
  decide +kernel

theorem ipv4Address_text (hn : n < 2 ^ 32) :
    ipv4Address (Text.join [0x2E] ((places 256 4 n).map (numeral 10))) = some n := by
  have hsplit : (Text.join [0x2E] ((places 256 4 n).map (numeral 10))).split 0x2E =
      (places 256 4 n).map (numeral 10) := by
    refine Text.split_join_iff.2 ⟨List.cons_ne_nil _ _, fun s hs => ?_⟩
    obtain ⟨d, _, rfl⟩ := List.mem_map.1 hs
    exact not_mem_numeral (by omega) (by omega) (by decide)
  have hread : ((places 256 4 n).map (numeral 10)).mapM parseOctet = some (places 256 4 n) :=
    mapM_map_eq_some fun d hd => parseOctet_numeral d (lt_of_mem_places (by omega) hd)
  rw [ipv4Address, hsplit, if_neg (by rw [List.length_map, length_places]; simp), hread, Option.map_some,
    ofDigits_places 4 hn]

theorem address4_str {a : ScopedAddress} (h : a.Valid) (hv4 : ∃ n, a.address = .v4 n) :
    address4 a.str = some a := by
  obtain ⟨address, scope⟩ := a
  obtain ⟨n, rfl⟩ := hv4
  obtain ⟨hn, hscope⟩ := h
  dsimp only at hscope
  subst hscope
  exact congrArg (Option.map _) (ipv4Address_text hn)

theorem address4_str_of_v6 {n : ℕ} {scope : Option Text} :
    address4 (ScopedAddress.str ⟨.v6 n, scope⟩) = none := by
  have hcolon : (0x3A : CodePoint) ∈ ScopedAddress.str ⟨.v6 n, scope⟩ := by
    cases scope with
    | none => exact colon_mem_text6
    | some z => exact List.mem_append_left _ colon_mem_text6
  rw [address4, ipv4Address_of_colon hcolon, Option.map_none]

/-! ### Reading networks -/

/-- The bits of an address. -/
def IpAddress.bits : IpAddress → ℕ
  | .v4 _ => 32
  | .v6 _ => 128

/-- The values a network object holds: its address has no bits after the prefix. -/
structure IpNetwork.Valid (network : IpNetwork) : Prop where
  address : network.networkAddress.Valid
  prefixlen : network.prefixlen ≤ network.networkAddress.address.bits
  masked : networkOf true network.networkAddress network.prefixlen = some network

theorem not_mem_str_slash {a : ScopedAddress} (h : a.Valid) : (0x2F : CodePoint) ∉ a.str := by
  obtain ⟨address, scope⟩ := a
  cases address with
  | v4 n =>
    intro hmem
    rcases Text.mem_join hmem with hmem | ⟨octet, hoctet, hmem⟩
    · simp at hmem
    · obtain ⟨d, _, rfl⟩ := List.mem_map.1 hoctet
      exact not_mem_numeral (by omega) (by omega) (by decide) hmem
  | v6 n =>
    have htext : (0x2F : CodePoint) ∉ text6 n := not_mem_text6 (by decide) (by decide)
    cases scope with
    | none => exact htext
    | some z =>
      intro hmem
      rcases List.mem_append.1 hmem with hmem | hmem
      · exact htext hmem
      · rcases List.mem_cons.1 hmem with hmem | hmem
        · simp at hmem
        · exact (h.2 z rfl).2.2 hmem

theorem prefixFromPrefixString_numeral {bits prefixlen : ℕ} (h : prefixlen ≤ bits)
    (hbits : bits ≤ 128) : prefixFromPrefixString bits (numeral 10 prefixlen) = some prefixlen := by
  have hlength : (numeral 10 prefixlen).length ≤ 3 := length_numeral_le (by omega) (by omega) (by omega)
  rw [prefixFromPrefixString, if_neg (by omega), number_numeral (by omega) (by omega)]
  simp [h]

theorem readNetwork_str {network : IpNetwork} (h : network.Valid)
    (parse : Text → Option ScopedAddress) (makeNetmask : Text → Option ℕ) (bits : ℕ) :
    readNetwork parse makeNetmask bits true network.str =
      (parse network.networkAddress.str).bind fun a =>
        (makeNetmask (numeral 10 network.prefixlen)).bind (networkOf true a) := by
  have hslash : (0x2F : CodePoint) ∉ numeral 10 network.prefixlen :=
    not_mem_numeral (by omega) (by omega) (by decide)
  rw [readNetwork, IpNetwork.str, Text.split_append_cons (not_mem_str_slash h.address),
    Text.split_eq_singleton hslash]
  rfl

/-- The text of a network reads back as the network. -/
theorem ipNetwork_str {network : IpNetwork} (h : network.Valid) :
    ipNetwork true network.str = some network := by
  rw [ipNetwork, readNetwork_str h, readNetwork_str h]
  obtain ⟨⟨address, scope⟩, prefixlen⟩ := network
  cases address with
  | v4 n =>
    have hmask : makeNetmask4 (numeral 10 prefixlen) = some prefixlen := by
      have hle : prefixlen ≤ 32 := h.prefixlen
      rw [makeNetmask4, prefixFromPrefixString_numeral hle (by omega), Option.some_or]
    rw [address4_str h.address ⟨n, rfl⟩, Option.bind_some, hmask, Option.bind_some, h.masked,
      Option.some_or]
  | v6 n =>
    have hmask : makeNetmask6 (numeral 10 prefixlen) = some prefixlen :=
      prefixFromPrefixString_numeral h.prefixlen le_rfl
    rw [address4_str_of_v6, Option.bind_none, Option.none_or,
      address6_str h.address.1 h.address.2, Option.bind_some, hmask, Option.bind_some, h.masked]

theorem prefixFromPrefixString_le {bits prefixlen : ℕ}
    (h : prefixFromPrefixString bits s = some prefixlen) : prefixlen ≤ bits := by
  rw [prefixFromPrefixString] at h
  split at h
  · cases h
  · exact of_decide_eq_true (Option.filter_eq_some_iff.1 h).2

theorem prefixFromIpInt_le {prefixlen : ℕ} (h : prefixFromIpInt n = some prefixlen) :
    prefixlen ≤ 32 :=
  Nat.le_of_lt_succ (List.mem_range.1 (List.mem_of_find?_eq_some h))

theorem makeNetmask4_le {prefixlen : ℕ} (h : makeNetmask4 s = some prefixlen) :
    prefixlen ≤ 32 := by
  rcases Option.or_eq_some_iff.1 h with h | ⟨_, h⟩
  · exact prefixFromPrefixString_le h
  · obtain ⟨n, _, h⟩ := Option.bind_eq_some_iff.1 h
    rcases Option.or_eq_some_iff.1 h with h | ⟨_, h⟩
    · exact prefixFromIpInt_le h
    · exact prefixFromIpInt_le h

theorem masked_masked (n m : ℕ) : n / m * m / m * m = n / m * m := by
  rcases Nat.eq_zero_or_pos m with rfl | hm
  · simp
  · rw [Nat.mul_div_cancel _ hm]

theorem valid_of_networkOf {strict : Bool} {a : ScopedAddress} {prefixlen : ℕ}
    {network : IpNetwork} (ha : a.Valid) (hle : prefixlen ≤ a.address.bits)
    (h : networkOf strict a prefixlen = some network) : network.Valid := by
  obtain ⟨address, scope⟩ := a
  cases address with
  | v4 n =>
    rw [networkOf] at h
    dsimp only at h
    split at h
    · rename_i hmasked
      cases h
      exact ⟨ha, hle, by rw [networkOf]; exact if_pos hmasked⟩
    · split at h
      · cases h
      · cases h
        refine ⟨⟨(Nat.div_mul_le_self _ _).trans_lt ha.1, rfl⟩, hle, ?_⟩
        exact if_pos (congrArg IpAddress.v4 (masked_masked _ _))
  | v6 n =>
    rw [networkOf] at h
    dsimp only at h
    split at h
    · rename_i hmasked
      cases h
      exact ⟨ha, hle, by rw [networkOf]; exact if_pos hmasked⟩
    · split at h
      · cases h
      · cases h
        refine ⟨⟨(Nat.div_mul_le_self _ _).trans_lt ha.1, ?_⟩, hle, ?_⟩
        · rintro _ ⟨⟩
        · exact if_pos (congrArg IpAddress.v6 (masked_masked _ _))

theorem readNetwork_cases {parse : Text → Option ScopedAddress} {makeNetmask : Text → Option ℕ}
    {bits : ℕ} {strict : Bool} {network : IpNetwork}
    (h : readNetwork parse makeNetmask bits strict s = some network) :
    ∃ address a prefixlen, parse address = some a ∧
      (prefixlen = bits ∨ ∃ mask, makeNetmask mask = some prefixlen) ∧
      networkOf strict a prefixlen = some network := by
  rw [readNetwork] at h
  split at h
  · rename_i address _
    obtain ⟨a, ha, h⟩ := Option.bind_eq_some_iff.1 h
    exact ⟨address, a, bits, ha, .inl rfl, h⟩
  · rename_i address mask _
    obtain ⟨a, ha, h⟩ := Option.bind_eq_some_iff.1 h
    obtain ⟨prefixlen, hprefixlen, h⟩ := Option.bind_eq_some_iff.1 h
    exact ⟨address, a, prefixlen, ha, .inr ⟨mask, hprefixlen⟩, h⟩
  · cases h

/-- Networks that are read have no bits after the prefix. -/
theorem valid_of_ipNetwork {strict : Bool} {network : IpNetwork}
    (h : ipNetwork strict s = some network) : network.Valid := by
  rcases Option.or_eq_some_iff.1 h with h | ⟨_, h⟩
  · obtain ⟨address, a, prefixlen, ha, hmask, h⟩ := readNetwork_cases h
    have hvalid := valid_of_address4 ha
    obtain ⟨n, _, rfl⟩ := Option.map_eq_some_iff.1 ha
    refine valid_of_networkOf hvalid ?_ h
    rcases hmask with rfl | ⟨mask, hmask⟩
    · exact le_rfl
    · exact makeNetmask4_le hmask
  · obtain ⟨address, a, prefixlen, ha, hmask, h⟩ := readNetwork_cases h
    have hvalid := valid_of_address6 ha
    obtain ⟨n, _, rfl⟩ := Option.map_eq_some_iff.1 ha
    refine valid_of_networkOf hvalid ?_ h
    rcases hmask with rfl | ⟨mask, hmask⟩
    · exact le_rfl
    · exact prefixFromPrefixString_le hmask

end Python
