import Swarm.Record

/-!
# Topic names

`topics.go`: the names of the topics a tenant's agents meet on. A helper joins a fixed front, the
tenant and, for nine of them, one more argument, with dots between them and nothing escaped.

The fronts are prefix-free, so a name tells its helper (`topicFront_inj`), but with a further
argument it does not tell where the tenant ends. The names of two tenants are disjoint exactly when
neither tenant is the other followed by a dot and more (`tenant_topics_disjoint_iff`).
-/

namespace Swarm

/-- The bytes of a literal. -/
def utf8 (s : String) : Bytes := s.toUTF8.data.toList

/-- The byte that joins the parts of a name. -/
def dot : UInt8 := 46

/-- The loop of `uint64ToDec`: digits from the least on, written from the end of the buffer. -/
def uint64ToDecLoop : ℕ → UInt64 → Bytes → Bytes
  | 0, _, buf => buf
  | i + 1, v, buf =>
    if 0 < v then uint64ToDecLoop i (v / 10) ((48 + v % 10).toUInt8 :: buf) else buf

/-- `uint64ToDec`, with its buffer of 20 bytes. -/
def uint64ToDec (v : UInt64) : Bytes := if v = 0 then utf8 "0" else uint64ToDecLoop 20 v []

/-! ## The helpers -/

/-- A name with one argument. -/
def tenantTopic (front : String) (tenantID : Bytes) : Topic := utf8 front ++ tenantID

/-- A name with two arguments. -/
def scopedTopic (front : String) (tenantID scope : Bytes) : Topic :=
  utf8 front ++ tenantID ++ utf8 "." ++ scope

/-! ### Distribution manifests -/

def agentPolicyTopic (tenantID : Bytes) : Topic := tenantTopic "agent.policy." tenantID

def agentTrustTopic (tenantID : Bytes) : Topic := tenantTopic "agent.trust." tenantID

def agentKeysTopic (tenantID : Bytes) : Topic := tenantTopic "agent.keys." tenantID

def agentBlocklistsTopic (tenantID : Bytes) : Topic := tenantTopic "agent.blocklists." tenantID

def agentAssetsTopic (tenantID : Bytes) : Topic := tenantTopic "agent.assets." tenantID

def agentRulesTopic (tenantID ruleType : Bytes) : Topic :=
  scopedTopic "agent.rules." tenantID ruleType

def agentDriversTopic (tenantID platform : Bytes) : Topic :=
  scopedTopic "agent.drivers." tenantID platform

def agentVouchersTopic (tenantID : Bytes) : Topic := tenantTopic "agent.vouchers." tenantID

def agentFIMBaselinesTopic (tenantID pathHashHex : Bytes) : Topic :=
  scopedTopic "agent.fim-baselines." tenantID pathHashHex

def agentOSQueryPacksTopic (tenantID : Bytes) : Topic := tenantTopic "agent.osquery-packs." tenantID

def agentLiveQueryCacheTopic (tenantID : Bytes) : Topic :=
  tenantTopic "agent.livequery-cache." tenantID

def agentForensicIndexTopic (tenantID : Bytes) : Topic :=
  tenantTopic "agent.forensic-index." tenantID

def agentContentAdvertTopic (tenantID : Bytes) : Topic :=
  tenantTopic "agent.content.advert." tenantID

/-! ### Operational state -/

def agentDDNSTopic (tenantID : Bytes) : Topic := tenantTopic "agent.ddns." tenantID

def agentQuarantineTopic (tenantID : Bytes) : Topic := tenantTopic "agent.quarantine." tenantID

def agentDHCPTopic (tenantID segment : Bytes) : Topic :=
  scopedTopic "agent.dhcp." tenantID segment

def agentDiscoveredAssetsTopic (tenantID : Bytes) : Topic :=
  tenantTopic "agent.discovered-assets." tenantID

def agentPrintersTopic (tenantID : Bytes) : Topic := tenantTopic "agent.printers." tenantID

def agentServiceStateTopic (tenantID : Bytes) : Topic := tenantTopic "agent.service-state." tenantID

def agentInventoryDeltasTopic (tenantID : Bytes) : Topic :=
  tenantTopic "agent.inventory-deltas." tenantID

/-! ### Security-critical -/

def agentRevokedKeysTopic (tenantID : Bytes) : Topic := tenantTopic "agent.revoked-keys." tenantID

def agentNetworkPSKTopic (tenantID : Bytes) (epoch : UInt64) : Topic :=
  scopedTopic "agent.network-psk." tenantID (uint64ToDec epoch)

def agentTrustPinsTopic (tenantID : Bytes) : Topic := tenantTopic "agent.trust-pins." tenantID

def agentTLSPinsTopic (tenantID domain : Bytes) : Topic :=
  scopedTopic "agent.tls-pins." tenantID domain

def agentIntegrityAlertTopic (tenantID : Bytes) : Topic :=
  tenantTopic "agent.integrity-alert." tenantID

/-! ### Sessions and devices -/

def agentSessionTopic (tenantID deviceID : Bytes) : Topic :=
  scopedTopic "agent.session." tenantID deviceID

def agentConsentTopic (tenantID userID : Bytes) : Topic :=
  scopedTopic "agent.consent." tenantID userID

def agentRemoteSessionsTopic (tenantID : Bytes) : Topic :=
  tenantTopic "agent.remote-sessions." tenantID

def agentTunnelsTopic (tenantID : Bytes) : Topic := tenantTopic "agent.tunnels." tenantID

/-! ### Telemetry -/

def agentHealthTopic (tenantID : Bytes) : Topic := tenantTopic "agent.health." tenantID

def agentEventTopic (tenantID eventType : Bytes) : Topic :=
  scopedTopic "agent.event." tenantID eventType

def agentThreatSignalTopic (tenantID : Bytes) : Topic := tenantTopic "agent.threat-signal." tenantID

def agentDNSCacheTopic (tenantID : Bytes) : Topic := tenantTopic "agent.dns-cache." tenantID

/-- The tenant-scoped helpers, each with its arguments after the tenant. -/
inductive TenantHelper where
  | policy
  | trust
  | keys
  | blocklists
  | assets
  | rules (ruleType : Bytes)
  | drivers (platform : Bytes)
  | vouchers
  | fimBaselines (pathHashHex : Bytes)
  | osQueryPacks
  | liveQueryCache
  | forensicIndex
  | contentAdvert
  | ddns
  | quarantine
  | dhcp (segment : Bytes)
  | discoveredAssets
  | printers
  | serviceState
  | inventoryDeltas
  | revokedKeys
  | networkPSK (epoch : UInt64)
  | trustPins
  | tlsPins (domain : Bytes)
  | integrityAlert
  | session (deviceID : Bytes)
  | consent (userID : Bytes)
  | remoteSessions
  | tunnels
  | health
  | event (eventType : Bytes)
  | threatSignal
  | dnsCache

/-- The name a helper builds for a tenant. -/
def TenantHelper.topic (tenantID : Bytes) : TenantHelper → Topic
  | .policy => agentPolicyTopic tenantID
  | .trust => agentTrustTopic tenantID
  | .keys => agentKeysTopic tenantID
  | .blocklists => agentBlocklistsTopic tenantID
  | .assets => agentAssetsTopic tenantID
  | .rules ruleType => agentRulesTopic tenantID ruleType
  | .drivers platform => agentDriversTopic tenantID platform
  | .vouchers => agentVouchersTopic tenantID
  | .fimBaselines pathHashHex => agentFIMBaselinesTopic tenantID pathHashHex
  | .osQueryPacks => agentOSQueryPacksTopic tenantID
  | .liveQueryCache => agentLiveQueryCacheTopic tenantID
  | .forensicIndex => agentForensicIndexTopic tenantID
  | .contentAdvert => agentContentAdvertTopic tenantID
  | .ddns => agentDDNSTopic tenantID
  | .quarantine => agentQuarantineTopic tenantID
  | .dhcp segment => agentDHCPTopic tenantID segment
  | .discoveredAssets => agentDiscoveredAssetsTopic tenantID
  | .printers => agentPrintersTopic tenantID
  | .serviceState => agentServiceStateTopic tenantID
  | .inventoryDeltas => agentInventoryDeltasTopic tenantID
  | .revokedKeys => agentRevokedKeysTopic tenantID
  | .networkPSK epoch => agentNetworkPSKTopic tenantID epoch
  | .trustPins => agentTrustPinsTopic tenantID
  | .tlsPins domain => agentTLSPinsTopic tenantID domain
  | .integrityAlert => agentIntegrityAlertTopic tenantID
  | .session deviceID => agentSessionTopic tenantID deviceID
  | .consent userID => agentConsentTopic tenantID userID
  | .remoteSessions => agentRemoteSessionsTopic tenantID
  | .tunnels => agentTunnelsTopic tenantID
  | .health => agentHealthTopic tenantID
  | .event eventType => agentEventTopic tenantID eventType
  | .threatSignal => agentThreatSignalTopic tenantID
  | .dnsCache => agentDNSCacheTopic tenantID

/-! ## What a name tells -/

/-- The fronts of the helpers with the tenant as the only argument. -/
def plainFronts : List String :=
  ["agent.policy.", "agent.trust.", "agent.keys.", "agent.blocklists.", "agent.assets.",
    "agent.vouchers.", "agent.osquery-packs.", "agent.livequery-cache.", "agent.forensic-index.",
    "agent.content.advert.", "agent.ddns.", "agent.quarantine.", "agent.discovered-assets.",
    "agent.printers.", "agent.service-state.", "agent.inventory-deltas.", "agent.revoked-keys.",
    "agent.trust-pins.", "agent.integrity-alert.", "agent.remote-sessions.", "agent.tunnels.",
    "agent.health.", "agent.threat-signal.", "agent.dns-cache."]

/-- The fronts of the helpers with a further argument. -/
def scopedFronts : List String :=
  ["agent.rules.", "agent.drivers.", "agent.fim-baselines.", "agent.dhcp.", "agent.network-psk.",
    "agent.tls-pins.", "agent.session.", "agent.consent.", "agent.event."]

theorem TenantHelper.topic_cases (h : TenantHelper) :
    (∃ front ∈ plainFronts, ∀ t, h.topic t = tenantTopic front t) ∨
      ∃ front ∈ scopedFronts, ∃ scope, ∀ t, h.topic t = scopedTopic front t scope := by
  cases h with
  | rules x | drivers x | fimBaselines x | dhcp x | tlsPins x | session x | consent x | event x =>
    exact Or.inr ⟨_, by simp [scopedFronts], x, fun _ => rfl⟩
  | networkPSK epoch => exact Or.inr ⟨_, by simp [scopedFronts], uint64ToDec epoch, fun _ => rfl⟩
  | _ => exact Or.inl ⟨_, by simp [plainFronts], fun _ => rfl⟩

theorem scopedTopic_eq (front : String) (t scope : Bytes) :
    scopedTopic front t scope = utf8 front ++ (t ++ dot :: scope) := by
  unfold scopedTopic
  rw [show utf8 "." = [dot] from rfl, List.append_assoc, List.append_assoc, List.singleton_append]

/-- No front is the beginning of another. -/
theorem fronts_prefix_free : ∀ f ∈ plainFronts ++ scopedFronts, ∀ g ∈ plainFronts ++ scopedFronts,
    (utf8 f).isPrefixOf (utf8 g) = true → f = g := by
  decide +kernel

theorem fronts_apart : ∀ f ∈ plainFronts, f ∉ scopedFronts := by
  decide +kernel

/-- A name tells its front, and with it what follows. -/
theorem topicFront_inj {f g : String} (hf : f ∈ plainFronts ++ scopedFronts)
    (hg : g ∈ plainFronts ++ scopedFronts) {x y : Bytes} (h : utf8 f ++ x = utf8 g ++ y) :
    f = g ∧ x = y := by
  have hfg : f = g := by
    rcases List.prefix_or_prefix_of_prefix (List.prefix_append (utf8 f) x)
      (h ▸ List.prefix_append (utf8 g) y) with hle | hle
    · exact fronts_prefix_free f hf g hg (List.isPrefixOf_iff_prefix.mpr hle)
    · exact (fronts_prefix_free g hg f hf (List.isPrefixOf_iff_prefix.mpr hle)).symm
  subst hfg
  exact ⟨rfl, List.append_cancel_left h⟩

/-- The tenant `t'` is `t` followed by a dot and more. -/
def Extends (t t' : Bytes) : Prop := ∃ more, t' = t ++ dot :: more

instance (t t' : Bytes) : Decidable (Extends t t') :=
  decidable_of_iff ((t ++ [dot]) <+: t') (by
    unfold Extends
    simp only [List.IsPrefix, List.append_assoc, List.singleton_append, eq_comm])

/-- Two tenants with a common continuation behind a dot are nested. -/
theorem eq_or_extends {t t' x y : Bytes} (h : t ++ dot :: x = t' ++ dot :: y) :
    t = t' ∨ Extends t t' ∨ Extends t' t := by
  rcases List.append_eq_append_iff.mp h with ⟨a, rfl, ha⟩ | ⟨a, rfl, ha⟩
  · cases a with
    | nil => exact Or.inl (List.append_nil t).symm
    | cons b a =>
      cases ha
      exact Or.inr (Or.inl ⟨a, rfl⟩)
  · cases a with
    | nil => exact Or.inl (List.append_nil t')
    | cons b a =>
      cases ha
      exact Or.inr (Or.inr ⟨a, rfl⟩)

/-- **Topics of different tenants.** For two tenants, every name any helper builds for the one
differs from every name any helper builds for the other, whatever the other arguments, exactly
when neither tenant is the other followed by a dot and more. -/
theorem tenant_topics_disjoint_iff (t₁ t₂ : Bytes) (hne : t₁ ≠ t₂) :
    (∀ h₁ h₂ : TenantHelper, h₁.topic t₁ ≠ h₂.topic t₂) ↔ ¬ Extends t₁ t₂ ∧ ¬ Extends t₂ t₁ := by
  constructor
  · intro hdisj
    constructor
    -- the same rule topic, with the rest of the longer tenant moved into the rule type
    · rintro ⟨more, rfl⟩
      refine hdisj (.rules (more ++ [dot])) (.rules []) ?_
      show scopedTopic _ _ _ = scopedTopic _ _ _
      rw [scopedTopic_eq, scopedTopic_eq, List.append_assoc t₁]
      rfl
    · rintro ⟨more, rfl⟩
      refine hdisj (.rules []) (.rules (more ++ [dot])) ?_
      show scopedTopic _ _ _ = scopedTopic _ _ _
      rw [scopedTopic_eq, scopedTopic_eq, List.append_assoc t₂]
      rfl
  · rintro ⟨hno, hno'⟩ h₁ h₂ heq
    rcases h₁.topic_cases with ⟨f, hf, htopic⟩ | ⟨f, hf, x, htopic⟩ <;>
      rcases h₂.topic_cases with ⟨g, hg, htopic'⟩ | ⟨g, hg, y, htopic'⟩
    all_goals rw [htopic, htopic'] at heq
    · exact hne (topicFront_inj (List.mem_append_left _ hf) (List.mem_append_left _ hg) heq).2
    · rw [scopedTopic_eq] at heq
      have hsame := (topicFront_inj (List.mem_append_left _ hf) (List.mem_append_right _ hg) heq).1
      exact fronts_apart f hf (hsame ▸ hg)
    · rw [scopedTopic_eq] at heq
      have hsame := (topicFront_inj (List.mem_append_right _ hf) (List.mem_append_left _ hg) heq).1
      exact fronts_apart g hg (hsame ▸ hf)
    · rw [scopedTopic_eq, scopedTopic_eq] at heq
      have hrest := (topicFront_inj (List.mem_append_right _ hf) (List.mem_append_right _ hg) heq).2
      rcases eq_or_extends hrest with h | h | h
      · exact hne h
      · exact hno h
      · exact hno' h

/-- Tenant `acme` with rule type `eu.yara` and tenant `acme.eu` with rule type `yara` share their
topic. -/
theorem nested_tenants_collide :
    utf8 "acme" ≠ utf8 "acme.eu" ∧
    agentRulesTopic (utf8 "acme") (utf8 "eu.yara") =
      agentRulesTopic (utf8 "acme.eu") (utf8 "yara") := by
  decide

theorem flat_tenants_disjoint :
    utf8 "acme" ≠ utf8 "globex" ∧
    ∀ h₁ h₂ : TenantHelper, h₁.topic (utf8 "acme") ≠ h₂.topic (utf8 "globex") := by
  have hne : utf8 "acme" ≠ utf8 "globex" := by decide
  exact ⟨hne, (tenant_topics_disjoint_iff _ _ hne).mpr (by decide)⟩

/-! ## Epochs -/

/-- The number a decimal text continues `n` to. -/
def decValue (n : ℕ) (text : Bytes) : ℕ := text.foldl (fun n b => 10 * n + (b.toNat - 48)) n

theorem digit_toNat (v : UInt64) : (48 + v % 10).toUInt8.toNat = 48 + v.toNat % 10 := by
  rw [UInt64.toNat_toUInt8, UInt64.toNat_add, UInt64.toNat_mod]
  simp only [UInt64.reduceToNat]
  omega

/-- Twenty bytes hold every number, and the loop writes it. -/
theorem decValue_loop (i : ℕ) (v : UInt64) (buf : Bytes) (hv : v.toNat < 10 ^ i) :
    decValue 0 (uint64ToDecLoop i v buf) = decValue v.toNat buf := by
  induction i generalizing v buf with
  | zero =>
    have hzero : v.toNat = 0 := by omega
    rw [hzero]
    rfl
  | succ i ih =>
    unfold uint64ToDecLoop
    split_ifs with hpos
    · have hdiv : (v / 10).toNat = v.toNat / 10 := by
        rw [UInt64.toNat_div]
        rfl
      rw [ih (v / 10) _ (by rw [hdiv]; rw [pow_succ] at hv; omega)]
      show decValue (10 * (v / 10).toNat + ((48 + v % 10).toUInt8.toNat - 48)) buf = _
      rw [digit_toNat, hdiv]
      congr 1
      omega
    · have hzero : v.toNat = 0 := by
        rw [UInt64.lt_iff_toNat_lt] at hpos
        simpa using hpos
      rw [hzero]

theorem decValue_uint64ToDec (v : UInt64) : decValue 0 (uint64ToDec v) = v.toNat := by
  unfold uint64ToDec
  split_ifs with h
  · subst h
    decide
  · have hlt := v.toNat_lt
    exact decValue_loop 20 v [] (by omega)

theorem dot_not_mem_loop (i : ℕ) (v : UInt64) (buf : Bytes) (hbuf : dot ∉ buf) :
    dot ∉ uint64ToDecLoop i v buf := by
  induction i generalizing v buf with
  | zero => exact hbuf
  | succ i ih =>
    unfold uint64ToDecLoop
    split_ifs
    · refine ih _ _ (List.not_mem_cons_of_ne_of_not_mem (fun heq => ?_) hbuf)
      have hnat := congrArg UInt8.toNat heq
      rw [digit_toNat, show dot.toNat = 46 from rfl] at hnat
      omega
    · exact hbuf

theorem dot_not_mem_uint64ToDec (v : UInt64) : dot ∉ uint64ToDec v := by
  unfold uint64ToDec
  split_ifs
  · decide
  · exact dot_not_mem_loop 20 v [] List.not_mem_nil

/-- Behind the last dot stands the epoch, so the epoch topics of all tenants are apart, nested or
not. -/
theorem agentNetworkPSKTopic_inj {t t' : Bytes} {epoch epoch' : UInt64}
    (h : agentNetworkPSKTopic t epoch = agentNetworkPSKTopic t' epoch') :
    t = t' ∧ epoch = epoch' := by
  unfold agentNetworkPSKTopic at h
  rw [scopedTopic_eq, scopedTopic_eq] at h
  have hno := dot_not_mem_uint64ToDec epoch
  have hno' := dot_not_mem_uint64ToDec epoch'
  have hparts : t = t' ∧ uint64ToDec epoch = uint64ToDec epoch' := by
    rcases List.append_eq_append_iff.mp (List.append_cancel_left h) with
      ⟨a, rfl, ha⟩ | ⟨a, rfl, ha⟩
    · cases a with
      | nil => exact ⟨(List.append_nil t).symm, List.tail_eq_of_cons_eq ha⟩
      | cons b a =>
        rw [List.tail_eq_of_cons_eq ha] at hno
        exact absurd (List.mem_append_right a List.mem_cons_self) hno
    · cases a with
      | nil => exact ⟨List.append_nil t', (List.tail_eq_of_cons_eq ha).symm⟩
      | cons b a =>
        rw [List.tail_eq_of_cons_eq ha] at hno'
        exact absurd (List.mem_append_right a List.mem_cons_self) hno'
  refine ⟨hparts.1, UInt64.toNat_inj.mp ?_⟩
  rw [← decValue_uint64ToDec epoch, hparts.2, decValue_uint64ToDec]

end Swarm
