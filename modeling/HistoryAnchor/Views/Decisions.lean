import HistoryAnchor.Views.Context

/-! # View decisions that the profile rejects

The assessor reads a decision without the check of the profile: the enabling tag counts
before the restricting one, and tags that are null stop the assessment. So a decision that
the profile rejects can sway the state, and only one with both tags can.
-/

namespace HistoryAnchor

open Python Responsible

section Rejected

variable [Ed25519] {r d : Record} {linked : List Record} {anchored recognised : List PyStr}
  {heights : PyStr → Option ℤ} {chain : Option ℤ} {cooling notice : ℤ}

namespace Responsible

def assessedState (r : Record) (linked : List Record) (anchored : List PyStr)
    (heights : PyStr → Option ℤ) (chain : Option ℤ) (recognised : List PyStr)
    (cooling notice : ℤ) : Py DiscoveryState := do
  let view ← assessResponsiblePublication r linked anchored heights chain recognised cooling notice
  return view.state

/-- The links without the view decisions that the profile rejects. -/
def withoutRejected (linked : List Record) : List Record :=
  linked.filter fun d => d.kind = "view_decision" → validateResponsibleRecord d.body = .ok ()

end Responsible

/-- A decision with both tags enables the record, and no other decision does. -/
structure Swayed (r : Record) (linked : List Record) (anchored : List PyStr)
    (heights : PyStr → Option ℤ) (chain : Option ℤ) (recognised : List PyStr)
    (cooling notice : ℤ) : Prop where
  published : r.recordId ∈ anchored
  declared : declaredPersonImpact r.body ≠ .ok (some "none")
  cooled : Cooled r heights chain cooling
  unchallenged : ¬Challenged linked anchored heights chain notice
  unrestricted : ∀ n ∈ linked, n.kind = "restriction_notice" → ¬n.Eligible anchored recognised
  undecided : ∀ d ∈ linked, d.kind = "view_decision" → d.HasTag viewRestrictTag →
    d.Eligible anchored recognised → d.HasTag viewEnableTag
  both : ∃ d ∈ linked, d.kind = "view_decision" ∧ d.HasTag viewEnableTag ∧
    d.HasTag viewRestrictTag ∧ d.Eligible anchored recognised
  alone : ∀ d ∈ linked, d.kind = "view_decision" → d.HasTag viewEnableTag →
    d.Eligible anchored recognised → d.HasTag viewRestrictTag

namespace Responsible

theorem validateResponsibleRecord_iff (hk : d.kind = "view_decision") :
    validateResponsibleRecord d.body = .ok () ↔
      d.Tagged ∧ (d.HasTag viewEnableTag ↔ ¬d.HasTag viewRestrictTag) := by
  have hkind : d.body.getD "kind" .null = .str "view_decision" := by
    rw [Json.getD, Json.get_of_text hk (by decide), Option.getD_some]
  have hactions : ([viewEnableTag, viewRestrictTag].filter (hasTag (d.body.items "tags"))).length
      = 1 ↔ (d.HasTag viewEnableTag ↔ ¬d.HasTag viewRestrictTag) := by
    rw [← Record.hasTag_iff, ← Record.hasTag_iff]
    cases he : hasTag (d.body.items "tags") viewEnableTag <;>
      cases hr : hasTag (d.body.items "tags") viewRestrictTag <;> simp [he, hr]
  have hclaim : ¬(d.body.getD "kind" .null).eqStr "claim" = true := by rw [hkind]; decide
  have hnotice : ¬(d.body.getD "kind" .null).eqStr "person_impact_notice" = true := by
    rw [hkind]
    decide
  have hdecision : (d.body.getD "kind" .null).eqStr "view_decision" = true := by rw [hkind]; decide
  simp only [validateResponsibleRecord, bind_ok, Record.tagSet_iff, require_ok, exists_unit]
  constructor
  · rintro ⟨tags, ⟨htagged, rfl⟩, impact, -, -, -, h⟩
    rw [if_pos hdecision, require_ok, hactions] at h
    exact ⟨htagged, h⟩
  · rintro ⟨htagged, h⟩
    obtain ⟨impact, himpact⟩ := Record.exists_declaredPersonImpact.mpr htagged
    refine ⟨_, ⟨htagged, rfl⟩, impact, himpact, fun hc => absurd hc hclaim,
      fun hn => absurd hn hnotice, ?_⟩
    rw [if_pos hdecision, require_ok, hactions]
    exact h

theorem mem_withoutRejected : d ∈ withoutRejected linked ↔
    d ∈ linked ∧ (d.kind = "view_decision" → validateResponsibleRecord d.body = .ok ()) := by
  rw [withoutRejected, List.mem_filter, decide_eq_true_iff]

theorem mem_withoutRejected_of_kind {kind : PyStr} (hk : d.kind = kind)
    (hne : kind ≠ "view_decision") : d ∈ withoutRejected linked ↔ d ∈ linked := by
  rw [mem_withoutRejected, and_iff_left]
  exact fun h => absurd (hk.symm.trans h) hne

theorem noticeHeights_withoutRejected :
    noticeHeights (withoutRejected linked) anchored heights =
      noticeHeights linked anchored heights := by
  ext h
  apply exists_congr
  intro n
  rw [and_congr_left_iff]
  rintro ⟨hk | hk, -⟩
  · exact mem_withoutRejected_of_kind hk (by decide)
  · exact mem_withoutRejected_of_kind hk (by decide)

theorem challenged_withoutRejected :
    Challenged (withoutRejected linked) anchored heights chain notice ↔
      Challenged linked anchored heights chain notice := by
  rw [Challenged, Challenged, noticeHeights_withoutRejected]

theorem action_eq_restrict_iff :
    d.action = .restrictDiscovery ↔ d.HasTag viewRestrictTag ∧ ¬d.HasTag viewEnableTag := by
  rw [Record.action, ← Record.hasTag_iff, ← Record.hasTag_iff]
  split_ifs with he hr
  · simp [he]
  · simp [he, hr]
  · simp [he, hr]

theorem decided_restrict_iff : Decided linked anchored recognised .restrictDiscovery ↔
    ∃ d ∈ linked, d.kind = "view_decision" ∧
      (d.HasTag viewRestrictTag ∧ ¬d.HasTag viewEnableTag) ∧ d.Eligible anchored recognised := by
  simp only [Decided, action_eq_restrict_iff]

theorem decided_restrict_withoutRejected (h : ∀ d ∈ linked, d.kind = "view_decision" → d.Tagged) :
    Decided (withoutRejected linked) anchored recognised .restrictDiscovery ↔
      Decided linked anchored recognised .restrictDiscovery := by
  rw [decided_restrict_iff, decided_restrict_iff]
  apply exists_congr
  intro d
  rw [and_congr_left_iff]
  rintro ⟨hk, ⟨hr, he⟩, -⟩
  rw [mem_withoutRejected, and_iff_left_iff_imp]
  intro hd _
  exact (validateResponsibleRecord_iff hk).mpr ⟨h d hd hk, iff_of_false he (not_not.mpr hr)⟩

theorem decided_enable_withoutRejected (h : ∀ d ∈ linked, d.kind = "view_decision" → d.Tagged) :
    Decided (withoutRejected linked) anchored recognised .enableDiscovery ↔
      ∃ d ∈ linked, d.kind = "view_decision" ∧ d.HasTag viewEnableTag ∧
        ¬d.HasTag viewRestrictTag ∧ d.Eligible anchored recognised := by
  simp only [Decided, Record.action_eq_enable]
  apply exists_congr
  intro d
  constructor
  · rintro ⟨hd, hk, he, hel⟩
    obtain ⟨hd, hv⟩ := mem_withoutRejected.mp hd
    exact ⟨hd, hk, he, ((validateResponsibleRecord_iff hk).mp (hv hk)).2.mp he, hel⟩
  · rintro ⟨hd, hk, he, hr, hel⟩
    refine ⟨mem_withoutRejected.mpr ⟨hd, fun _ => ?_⟩, hk, he, hel⟩
    exact (validateResponsibleRecord_iff hk).mpr ⟨h d hd hk, iff_of_true he hr⟩

theorem listable_withoutRejected (ht : r.Tagged)
    (h : ∀ d ∈ linked, d.kind = "view_decision" → d.Tagged) :
    Listable r (withoutRejected linked) anchored recognised heights chain cooling ↔
      r.recordId ∈ anchored ∧
      (∀ n ∈ linked, n.kind = "restriction_notice" → ¬n.Eligible anchored recognised) ∧
      ¬Decided linked anchored recognised .restrictDiscovery ∧
      (declaredPersonImpact r.body = .ok (some "none") ∨ Cooled r heights chain cooling ∧
        ∃ d ∈ linked, d.kind = "view_decision" ∧ d.HasTag viewEnableTag ∧
          ¬d.HasTag viewRestrictTag ∧ d.Eligible anchored recognised) := by
  rw [← decided_enable_withoutRejected h, ← decided_restrict_withoutRejected h]
  constructor
  · intro hl
    refine ⟨hl.published, fun n hn hk => ?_, hl.undecided, hl.free⟩
    exact hl.unrestricted n ((mem_withoutRejected_of_kind hk (by decide)).mpr hn) hk
  · rintro ⟨hp, hn, hd, hfree⟩
    refine ⟨ht, fun d hd hk => h d (mem_withoutRejected.mp hd).1 hk, hp, fun n hm hk => ?_, hd,
      hfree⟩
    exact hn n ((mem_withoutRejected_of_kind hk (by decide)).mp hm) hk

theorem state_of_ok {v : Responsible.View} (hv : assessResponsiblePublication r linked anchored
    heights chain recognised cooling notice = .ok v) :
    v.state = if r.recordId ∈ anchored then
      if v.listed = true then
        if declaredPersonImpact r.body = .ok (some "none") then .discoverable
        else .discoverableByAccountableDecision
      else .shielded
    else .unpublished := by
  simp only [assessResponsiblePublication, bind_ok] at hv
  obtain ⟨impact, himpact, decisions, -, hv⟩ := hv
  obtain rfl := Except.ok.inj hv
  have hnone : declaredPersonImpact r.body = .ok (some "none") ↔ impact = some (ascii "none") := by
    rw [himpact, Except.ok.injEq]
  simp only [hnone, Responsible.View.listed]
  generalize (verdict _ _ _ _).1 = shielded
  by_cases hp : r.recordId ∈ anchored
  · cases shielded <;> by_cases hi : impact = some (ascii "none") <;>
      simp [discoveryState, hp, hi]
  · simp [discoveryState, hp]

theorem state_eq_iff {linked' : List Record} {v v' : Responsible.View}
    (hv : assessResponsiblePublication r linked anchored heights chain recognised cooling notice =
      .ok v)
    (hv' : assessResponsiblePublication r linked' anchored heights chain recognised cooling notice =
      .ok v') :
    v.state = v'.state ↔ (r.recordId ∈ anchored → (v.listed = true ↔ v'.listed = true)) := by
  rw [state_of_ok hv, state_of_ok hv']
  by_cases hp : r.recordId ∈ anchored
  · simp only [hp, true_imp_iff]
    by_cases hl : v.listed = true <;> by_cases hl' : v'.listed = true <;>
      by_cases hi : declaredPersonImpact r.body = .ok (some "none") <;> simp [hl, hl', hi]
  · simp [hp]

theorem listed_withoutRejected_iff (ht : r.Tagged)
    (h : ∀ d ∈ linked, d.kind = "view_decision" → d.Tagged) {v v' : Responsible.View}
    (hv : assessResponsiblePublication r (withoutRejected linked) anchored heights chain recognised
      cooling notice = .ok v)
    (hv' : assessResponsiblePublication r linked anchored heights chain recognised cooling notice =
      .ok v') :
    (r.recordId ∈ anchored → (v.listed = true ↔ v'.listed = true)) ↔
      ¬Swayed r linked anchored heights chain recognised cooling notice := by
  rw [listed_iff_of_ok hv, listed_iff_of_ok hv', challenged_withoutRejected,
    listable_withoutRejected ht h]
  constructor
  · intro hsame hs
    have hundecided : ¬Decided linked anchored recognised .restrictDiscovery := by
      rw [decided_restrict_iff]
      rintro ⟨d, hd, hk, ⟨hr, he⟩, hel⟩
      exact he (hs.undecided d hd hk hr hel)
    have henabled : Decided linked anchored recognised .enableDiscovery := by
      obtain ⟨d, hd, hk, he, -, hel⟩ := hs.both
      exact ⟨d, hd, hk, Record.action_eq_enable.mpr he, hel⟩
    obtain ⟨⟨-, -, -, hfree⟩, -⟩ := (hsame hs.published).mpr
      ⟨⟨ht, h, hs.published, hs.unrestricted, hundecided, Or.inr ⟨hs.cooled, henabled⟩⟩,
        hs.unchallenged⟩
    obtain hdeclared | ⟨-, d, hd, hk, he, hr, hel⟩ := hfree
    · exact hs.declared hdeclared
    · exact hr (hs.alone d hd hk he hel)
  · intro hs hp
    constructor
    · rintro ⟨⟨-, hn, hd, hfree⟩, hc⟩
      refine ⟨⟨ht, h, hp, hn, hd, hfree.imp_right ?_⟩, hc⟩
      rintro ⟨hcooled, d, hm, hk, he, -, hel⟩
      exact ⟨hcooled, d, hm, hk, Record.action_eq_enable.mpr he, hel⟩
    · rintro ⟨hl, hc⟩
      refine ⟨⟨hp, hl.unrestricted, hl.undecided, ?_⟩, hc⟩
      by_contra hfree
      rw [not_or] at hfree
      obtain ⟨hdeclared, hnone⟩ := hfree
      obtain ⟨hcooled, d, hm, hk, ha, hel⟩ := hl.free.resolve_left hdeclared
      -- no decision has the enabling tag alone, so the one that was accepted has both
      have halone : ∀ d ∈ linked, d.kind = "view_decision" → d.HasTag viewEnableTag →
          d.Eligible anchored recognised → d.HasTag viewRestrictTag := by
        intro d hm hk he hel
        by_contra hr
        exact hnone ⟨hcooled, d, hm, hk, he, hr, hel⟩
      have he := Record.action_eq_enable.mp ha
      apply hs
      refine ⟨hp, hdeclared, hcooled, hc, hl.unrestricted, ?_, ⟨d, hm, hk, he, ?_, hel⟩, halone⟩
      · intro d hm hk hr hel
        by_contra he
        exact hl.undecided (decided_restrict_iff.mpr ⟨d, hm, hk, ⟨hr, he⟩, hel⟩)
      · exact halone d hm hk he hel

/-- The decisions that the profile rejects are inert exactly if the tags of the record stop the
assessment anyway, or no decision has null tags and none sways the record. -/
theorem assessedState_withoutRejected_iff :
    assessedState r (withoutRejected linked) anchored heights chain recognised cooling notice =
        assessedState r linked anchored heights chain recognised cooling notice ↔
      ¬r.Tagged ∨ (∀ d ∈ linked, d.kind = "view_decision" → d.Tagged) ∧
        ¬Swayed r linked anchored heights chain recognised cooling notice := by
  by_cases ht : r.Tagged
  · rw [or_iff_right (not_not.mpr ht)]
    obtain ⟨v, hv⟩ := @exists_assess_iff _ r (withoutRejected linked) anchored recognised heights
      chain cooling notice |>.mpr
      ⟨ht, fun d hd hk => Record.tagged_of_valid ((mem_withoutRejected.mp hd).2 hk)⟩
    rw [assessedState, assessedState, hv]
    by_cases h : ∀ d ∈ linked, d.kind = "view_decision" → d.Tagged
    · obtain ⟨v', hv'⟩ := exists_assess_iff.mpr ⟨ht, h⟩
      rw [hv', and_iff_right h, ← listed_withoutRejected_iff ht h hv hv', ← state_eq_iff hv hv']
      exact Except.ok.injEq _ _ |>.to_iff
    · rw [iff_false_right fun hs => h hs.1]
      intro hsame
      obtain ⟨v', hv', -⟩ := bind_ok.mp hsame.symm
      exact h (exists_assess_iff.mp ⟨v', hv'⟩).2
  · rw [iff_true_right (Or.inl ht)]
    have hstop : ∀ links, assessResponsiblePublication r links anchored heights chain recognised
        cooling notice = raise .typeError "object is not iterable" := by
      intro links
      rw [assessResponsiblePublication, declaredPersonImpact, Record.iterateTags_of_not_tagged ht]
      rfl
    rw [assessedState, assessedState, hstop, hstop]

end Responsible

end Rejected

section Witness

@[reducible] def swayedKeys : Ed25519 := keyring samplePublicKey
  [(ascii "8b1c2624f4802febdccf9b9b102e1590babf7e4e6dd26ea6df4b4e235fea7f7b", ascii
    "ZQ5hIqzYzEACs3LWcIO6rdrLNwJAJ8/a5pKugy3P3ZCIMaJzUfUQ5OyvY9XlzDnrMDk+3odaK6uqASmrzJbjCw=="),
   (ascii "ed97058162030f9e1fecfbc82456b1b0be564157cd406209f2b7d68d3626dc63", ascii
    "OHU5fdk1GyWH/FGV4aKyl9fiu+TrBBOo7ZGpwg/4EI0oYQm/4JrBIbVj7lzgwqLdKGtzkQH7MZorAPpMnknjAQ==")]

attribute [local instance] swayedKeys

def directClaim : Record where
  body := sampleRecord (.int 1) "claim"
    .null (.arr [.str "hap:person-impact:direct"])
    "ZQ5hIqzYzEACs3LWcIO6rdrLNwJAJ8/a5pKugy3P3ZCIMaJzUfUQ5OyvY9XlzDnrMDk+3odaK6uqASmrzJbjCw=="
    "02aeb20757189a86bf0937899fa33f12bb83359cccf63846343ba1930503fda5"
  valid := Records.sampleRecord_valid (by decide +kernel)

def bothWaysDecision : Record where
  body := sampleRecord (.int 1) "view_decision"
    (.str "02aeb20757189a86bf0937899fa33f12bb83359cccf63846343ba1930503fda5")
    (.arr [.str "hap:view:enable-discovery", .str "hap:view:restrict-discovery"])
    "OHU5fdk1GyWH/FGV4aKyl9fiu+TrBBOo7ZGpwg/4EI0oYQm/4JrBIbVj7lzgwqLdKGtzkQH7MZorAPpMnknjAQ=="
    "5836b58bea3054246b7c5354fa4147de297c276259a2e229a9be871ec17e1d3e"
  valid := Records.sampleRecord_valid (by decide +kernel)

def swayedHeights (recordId : PyStr) : Option ℤ :=
  ([(directClaim.recordId, 100), (bothWaysDecision.recordId, 101)] : List (PyStr × ℤ)).lookup
    recordId

/-- The profile rejects the decision, which nevertheless makes the claim discoverable. -/
theorem rejected_decision_counts :
    validateResponsibleRecord bothWaysDecision.body ≠ .ok () ∧
    assessedState directClaim (withoutRejected [bothWaysDecision])
        [directClaim.recordId, bothWaysDecision.recordId] swayedHeights (some 110)
        [bothWaysDecision.authorId] 6 6 = .ok .shielded ∧
    assessedState directClaim [bothWaysDecision]
        [directClaim.recordId, bothWaysDecision.recordId] swayedHeights (some 110)
        [bothWaysDecision.authorId] 6 6 = .ok .discoverableByAccountableDecision := by
  refine ⟨by decide +kernel, by decide +kernel, by decide +kernel⟩

end Witness

end HistoryAnchor
