import Grosh.WebhookRotation

/-!
# The webhook that Monobank has

A link that rotates registers the URL it has read when it began; a run of `reregister_webhooks`
registers the one it has written. Another run may have written the config in between.

The stored URL is what the next link or the next run would register, and the secret in it is what
the webhook endpoint looks for. So a disagreement at the end means that the calls of the bank are
refused until somebody registers again. Only runs without a failed call are looked at; a call that
fails leaves the old URL, which is another way to the same end.

* `webhook_agrees_iff` — when all are done Monobank has the stored URL, exactly if the last call
  registers the URL that is stored then.
-/

namespace Grosh

open Transition

/-! ## The calls -/

section Url

variable {τ : Type*} [DecidableEq τ] {p : τ → WebhookParty} {s s' s'' : WebhookState τ}
  {l : WebhookLabel τ} {i : τ} {id : UUID} {c : IntegrationConfig} {r : Integration}
  {rest : List Integration}

/-- The stored URL contains the stored secret. -/
def IntegrationConfig.HasSecret (config : IntegrationConfig) : Prop :=
  ∃ before after, config.webhookUrl = before ++ config.webhookSecret ++ after

/-- Monobank has the URL that is stored for the integration, and it contains the secret. -/
def WebhookAgrees (id : UUID) (s : WebhookState τ) : Prop :=
  ∃ c, s.db.config id = some c ∧ s.registered c.monobankClientId = some c.webhookUrl ∧ c.HasSecret

/-- The client and the URL of the call that a party makes next. -/
def nextCall (p : τ → WebhookParty) (s : WebhookState τ) (i : τ) : Option (String × String) :=
  match p i, s.phase i with
  | .rotate q, .rotated existing =>
    some (existing.config.monobankClientId, existing.config.storedUrl q.webhookBaseUrl)
  | .reregister q, .written r _ =>
    some (r.config.monobankClientId, (newConfig q r).webhookUrl)
  | _, _ => none

/-- The step calls Monobank for the client of the integration. -/
def CallsClient (p : τ → WebhookParty) (id : UUID) (s : WebhookState τ) : WebhookLabel τ → Prop
  | .run i _ => ∃ c ∈ s.db.config id, (nextCall p s i).map Prod.fst = some c.monobankClientId
  | .crash _ => False

/-- The URL the step registers is the one that is stored for the integration. -/
def CallsStored (p : τ → WebhookParty) (id : UUID) (s : WebhookState τ) : WebhookLabel τ → Prop
  | .run i _ => ∃ c ∈ s.db.config id, (nextCall p s i).map Prod.snd = some c.webhookUrl
  | .crash _ => False

/-- The step is not a crash, and its call does not fail. -/
def WebhookLabel.succeeds : WebhookLabel τ → Bool
  | .run _ ok => ok
  | .crash _ => false

omit [DecidableEq τ] in
theorem hasSecret_newConfig {q : Reregistration} : (newConfig q r).HasSecret :=
  ⟨q.webhookBaseUrl ++ "/monobank/webhook/", "", by
    show webhookUrl q.webhookBaseUrl (q.newSecret r.id) = _
    rw [String.append_empty]
    rfl⟩

/-- **A call** is the only thing that changes what Monobank has. -/
theorem registered_step (h : WebhookState.step p s l = some s') (hok : l.succeeds = true)
    (clientId : String) :
    (s'.registered clientId = s.registered clientId ∧
      ∀ url, nextCall p s l.who ≠ some (clientId, url)) ∨
    ∃ url, nextCall p s l.who = some (clientId, url) ∧ s'.registered clientId = some url ∧
      s'.db = s.db := by
  obtain ⟨i, ok, rfl, hm⟩ | ⟨i, rfl, -⟩ := WebhookState.step_cases h
  swap
  · cases hok
  obtain rfl : ok = true := hok
  have hcall : ∀ client url phase, nextCall p s i = some (client, url) →
      s' = (s.call true client url).goto i phase →
      (s'.registered clientId = s.registered clientId ∧
        ∀ url, nextCall p s i ≠ some (clientId, url)) ∨
      ∃ url, nextCall p s i = some (clientId, url) ∧ s'.registered clientId = some url ∧
        s'.db = s.db := by
    intro client url phase hnext heq
    subst heq
    by_cases hc : clientId = client
    · subst hc
      exact Or.inr ⟨url, hnext, Function.update_self .., rfl⟩
    · refine Or.inl ⟨Function.update_of_ne hc _ _, fun url' hnext' => hc ?_⟩
      rw [hnext] at hnext'
      exact (congrArg Prod.fst (Option.some.inj hnext')).symm
  show (_ ∧ ∀ url, nextCall p s i ≠ some (clientId, url)) ∨
    ∃ url, nextCall p s i = some (clientId, url) ∧ _
  cases hm with
  | linkCall q existing hp hph => exact hcall _ _ _ (by simp only [nextCall, hp, hph]) rfl
  | runCall q r rest hp hph => exact hcall _ _ _ (by simp only [nextCall, hp, hph]) rfl
  | _ => exact Or.inl ⟨rfl, fun url h => by simp [nextCall, *] at h⟩

/-! ## The last call -/

/-- What holds in every state: the integration is stored, and its URL contains its secret. -/
structure StoredAt (id : UUID) (s : WebhookState τ) : Prop where
  known : s.Known
  stored : ∃ c, s.db.config id = some c ∧ c.HasSecret

theorem StoredAt.step (h : StoredAt id s) (hs : WebhookState.step p s l = some s') :
    StoredAt id s' := by
  refine ⟨h.known.step hs, ?_⟩
  obtain ⟨c, hc, hsecret⟩ := h.stored
  obtain hdb | ⟨i, ok, q, existing, -, -, -, hdb⟩ | ⟨i, ok, q, r, rest, -, -, -, -, -, hdb⟩ :=
    WebhookState.db_step hs
  · rw [hdb]
    exact ⟨c, hc, hsecret⟩
  · rw [hdb, config_updateIntegrationToken, hc]
    refine ⟨_, rfl, ?_⟩
    split
    · exact hsecret
    · exact hsecret
  · rw [config_updateConfig hdb, hc]
    refine ⟨_, rfl, ?_⟩
    split
    · exact hasSecret_newConfig
    · exact hsecret

omit [DecidableEq τ] in
theorem StoredAt.agrees_iff (h : StoredAt id s) (hc : s.db.config id = some c) :
    WebhookAgrees id s ↔ s.registered c.monobankClientId = some c.webhookUrl := by
  refine ⟨?_, fun hreg => ?_⟩
  · rintro ⟨c', hc', hreg, -⟩
    obtain rfl := Option.some.inj (hc.symm.trans hc')
    exact hreg
  · obtain ⟨c', hc', hsecret⟩ := h.stored
    obtain rfl := Option.some.inj (hc.symm.trans hc')
    exact ⟨c, hc, hreg, hsecret⟩

/-- A call for the client decides. -/
theorem StoredAt.agrees_of_call (h : StoredAt id s) (hok : l.succeeds = true)
    (hs : WebhookState.step p s l = some s') (hcall : CallsClient p id s l) :
    WebhookAgrees id s' ↔ CallsStored p id s l := by
  cases l with
  | crash i => cases hok
  | run i ok =>
    obtain ⟨c, hc, hclient⟩ := hcall
    obtain ⟨⟨client, url⟩, hnext, rfl⟩ := Option.map_eq_some_iff.mp hclient
    obtain ⟨-, hno⟩ | ⟨url', hnext', hreg, hdb⟩ := registered_step hs hok c.monobankClientId
    · exact absurd hnext (hno url)
    have hurl : url = url' :=
      congrArg Prod.snd (Option.some.inj (hnext.symm.trans hnext'))
    subst hurl
    rw [(h.step hs).agrees_iff (hdb ▸ hc), hreg, CallsStored]
    refine ⟨fun heq => ⟨c, hc, by rw [hnext]; exact heq⟩, ?_⟩
    rintro ⟨c', hc', hurl⟩
    obtain rfl := Option.some.inj (hc.symm.trans hc')
    rw [hnext] at hurl
    exact hurl

/-- A run that has written a config stays there until it calls Monobank. -/
theorem written_stays {labels : List (WebhookLabel τ)} {q : Reregistration} (h : StoredAt id s)
    (hp : p i = .reregister q) (hph : s.phase i = .written r rest) (hid : r.id = id)
    (hok : ∀ l ∈ labels, l.succeeds = true)
    (hno : Along (WebhookState.step p) (fun s l => ¬ CallsClient p id s l) s labels)
    (he : exec (WebhookState.step p) s labels = some s'') : s''.phase i = .written r rest := by
  have hstep : ∀ s l s', StoredAt id s ∧ s.phase i = .written r rest →
      (¬ CallsClient p id s l ∧ l.succeeds = true) → WebhookState.step p s l = some s' →
      StoredAt id s' ∧ s'.phase i = .written r rest := by
    rintro s l s' ⟨hI, hph⟩ ⟨hno, hok⟩ hs
    refine ⟨hI.step hs, ?_⟩
    by_cases hi : i = l.who
    swap
    · rw [WebhookState.phase_of_ne hs hi]
      exact hph
    cases l with
    | crash j => cases hok
    | run j ok =>
      obtain rfl : i = j := hi
      obtain ⟨c, hc, hclient⟩ := hI.known i r (by rw [hph]; exact List.mem_cons_self ..)
      refine absurd ⟨c, hid ▸ hc, ?_⟩ hno
      simp only [nextCall, hp, hph, Option.map_some, hclient]
  exact (exec_invariant_along hstep ⟨h, hph⟩ (hno.and_label hok) he).2

/-- **A step without a call** does not matter, if no call follows. -/
theorem StoredAt.agrees_of_no_call {labels : List (WebhookLabel τ)} (h : StoredAt id s)
    (hok : l.succeeds = true) (hoks : ∀ l ∈ labels, l.succeeds = true)
    (hcall : ¬ CallsClient p id s l) (hs : WebhookState.step p s l = some s')
    (hno : Along (WebhookState.step p) (fun s l => ¬ CallsClient p id s l) s' labels)
    (he : exec (WebhookState.step p) s' labels = some s'') (hend : ∀ i, s''.phase i = .ended) :
    WebhookAgrees id s' ↔ WebhookAgrees id s := by
  obtain ⟨c, hc, -⟩ := h.stored
  have hreg : s'.registered c.monobankClientId = s.registered c.monobankClientId := by
    obtain ⟨hreg, -⟩ | ⟨url, hnext, -⟩ := registered_step hs hok c.monobankClientId
    · exact hreg
    cases l with
    | crash i => cases hok
    | run i ok =>
      refine absurd ⟨c, hc, ?_⟩ hcall
      rw [show nextCall p s i = _ from hnext]
      rfl
  -- the client and the URL stay as they are
  have hsame : ∃ c', s'.db.config id = some c' ∧ c'.monobankClientId = c.monobankClientId ∧
      c'.webhookUrl = c.webhookUrl := by
    obtain hdb | ⟨i, ok, q, existing, -, -, -, hdb⟩ |
      ⟨i, ok, q, r, rest, -, hp, -, -, hph', hdb⟩ := WebhookState.db_step hs
    · rw [hdb]
      exact ⟨c, hc, rfl, rfl⟩
    · rw [hdb, config_updateIntegrationToken, hc]
      refine ⟨_, rfl, ?_⟩
      split
      · exact ⟨rfl, rfl⟩
      · exact ⟨rfl, rfl⟩
    · by_cases hid : r.id = id
      · -- the run has yet to call Monobank
        have hlast := written_stays (h.step hs) hp hph' hid hoks hno he
        rw [hend i] at hlast
        cases hlast
      · rw [config_updateConfig hdb, hc, Option.map_some, if_neg (Ne.symm hid)]
        exact ⟨c, rfl, rfl, rfl⟩
  obtain ⟨c', hc', hclient, hurl⟩ := hsame
  rw [h.agrees_iff hc, (h.step hs).agrees_iff hc', hclient, hurl, hreg]

/-- **Monobank has the stored URL in the end, exactly if the last call registers it**: whatever the
tables are, once any number of runs of `reregister_webhooks` and of links that rotate have finished,
in any order of their statements and calls, none of which fails, the URL that is registered for the
client of an integration is the one that is stored and contains the stored secret, if and only if
the last call for the client registers the URL that is stored for the integration at that moment. -/
theorem webhook_agrees_iff (p : τ → WebhookParty) (db : LinkDb)
    (registered : String → Option String) (id : UUID)
    (hstart : WebhookAgrees id (.start db registered : WebhookState τ))
    (labels : List (WebhookLabel τ)) (hok : ∀ l ∈ labels, l.succeeds = true)
    (he : exec (WebhookState.step p) (.start db registered) labels = some s'')
    (hend : ∀ i, s''.phase i = .ended) :
    WebhookAgrees id s'' ↔
      AtLast (WebhookState.step p) (CallsClient p id) (CallsStored p id) (.start db registered)
        labels := by
  have hI : StoredAt id (.start db registered : WebhookState τ) := by
    obtain ⟨c, hc, -, hsecret⟩ := hstart
    exact ⟨WebhookState.known_start, c, hc, hsecret⟩
  have hstep : ∀ s l s', StoredAt id s → WebhookState.step p s l = some s' → StoredAt id s' :=
    fun s l s' h hs => h.step hs
  have hcall : ∀ s l s', StoredAt id s → l.succeeds = true → CallsClient p id s l →
      WebhookState.step p s l = some s' → (WebhookAgrees id s' ↔ CallsStored p id s l) :=
    fun s l s' h hok hcall hs => h.agrees_of_call hok hs hcall
  rw [iff_atLast hstep hcall
    (fun s l s' labels s'' h hok hoks hcall hs hno he hend =>
      h.agrees_of_no_call hok hoks hcall hs hno he hend) hI hok he hend]
  exact and_iff_left fun _ => hstart

instance (p : τ → WebhookParty) (id : UUID) (s : WebhookState τ) :
    ∀ l, Decidable (CallsClient p id s l)
  | .run _ _ => inferInstanceAs (Decidable (∃ c ∈ s.db.config id, _ = _))
  | .crash _ => .isFalse fun h => h

instance (p : τ → WebhookParty) (id : UUID) (s : WebhookState τ) :
    ∀ l, Decidable (CallsStored p id s l)
  | .run _ _ => inferInstanceAs (Decidable (∃ c ∈ s.db.config id, _ = _))
  | .crash _ => .isFalse fun h => h

end Url

/-- Monobank has the URL of the integration. -/
theorem sampleAgrees :
    WebhookAgrees 2 (.start sampleIntegrations sampleRegistered : WebhookState Bool) :=
  ⟨sampleIntegration.config, rfl, rfl, "https://grosh/monobank/webhook/", "", by decide⟩

/-- One after the other. -/
theorem webhook_agrees_in_turn :
    ∃ s, exec (WebhookState.step sampleParties) (.start sampleIntegrations sampleRegistered)
        (turns false 4 ++ turns true 4) = some s ∧ WebhookAgrees 2 s := by
  have hrun : ((exec (WebhookState.step sampleParties)
      (.start sampleIntegrations sampleRegistered) (turns false 4 ++ turns true 4)).map fun s =>
      (s.phase false, s.phase true)) = some (.ended, .ended) := by
    decide +kernel
  obtain ⟨s, he, h⟩ := Option.map_eq_some_iff.mp hrun
  obtain ⟨hlink, hjob⟩ := Prod.mk.inj h
  refine ⟨s, he, (webhook_agrees_iff sampleParties sampleIntegrations sampleRegistered 2
    sampleAgrees _ (by decide) he fun i => ?_).mpr (by decide +kernel)⟩
  cases i with
  | false => exact hlink
  | true => exact hjob

/-- The link reads the config, the run writes a new one and registers its URL, and the link
registers the URL it has read. -/
theorem webhook_stale :
    ∃ s, exec (WebhookState.step sampleParties) (.start sampleIntegrations sampleRegistered)
        (turns false 1 ++ turns true 4 ++ turns false 3) = some s ∧
      (∀ i, s.phase i = .ended) ∧ ¬ WebhookAgrees 2 s := by
  have hrun : ((exec (WebhookState.step sampleParties)
      (.start sampleIntegrations sampleRegistered)
      (turns false 1 ++ turns true 4 ++ turns false 3)).map fun s =>
      (s.phase false, s.phase true, s.registered "c", s.db.config 2)) =
      some (.ended, .ended, some (webhookUrl "https://grosh" "s1"),
        some ⟨"new", 1, "s2", webhookUrl "https://grosh" "s2", "c"⟩) := by
    decide +kernel
  obtain ⟨s, he, h⟩ := Option.map_eq_some_iff.mp hrun
  simp only [Prod.mk.injEq] at h
  obtain ⟨hlink, hjob, hreg, hconfig⟩ := h
  refine ⟨s, he, fun i => ?_, ?_⟩
  · cases i with
    | false => exact hlink
    | true => exact hjob
  · rintro ⟨c, hc, hurl, -⟩
    obtain rfl := Option.some.inj (hconfig.symm.trans hc)
    exact absurd (Option.some.inj (hreg.symm.trans hurl)) (by decide)

end Grosh
