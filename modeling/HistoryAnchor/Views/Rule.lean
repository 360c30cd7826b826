import HistoryAnchor.Node.Reached
import HistoryAnchor.Views.Responsible
import Mathlib.Order.Bounds.Basic

/-! # The rule of the reference feed

A record is listed when it is anchored, nothing recognised restricts it, no challenge
window is open, and either it declares no impact or a recognised decision enabled it
after cooling. The window is that of the first notice, whenever it was anchored.
-/

namespace HistoryAnchor

open Python Responsible

section Rule

variable [Ed25519] {r d : Record} {tag : PyStr} {tags : List Json}

namespace Record

/-- The tags are a list; null is accepted as well when a record is validated. -/
def Tagged (r : Record) : Prop := r.body.get "tags" ≠ some .null

def HasTag (r : Record) (tag : PyStr) : Prop := .str tag ∈ r.body.items "tags"

theorem tags_cases (r : Record) : r.body.get "tags" = some .null ∨
    ∃ tags, r.body.get "tags" = some (.arr tags) ∧ ∀ x ∈ tags, ∃ s, x = .str s := by
  obtain ⟨fields, -, hobj, hf, -⟩ := Records.validateRecord_ok r.valid
  obtain ⟨x, hx⟩ := Json.get_of_hasFields hf (k := "tags") (by decide)
  rw [← hobj] at hx
  have hvalid := r.valid
  simp only [Records.validateRecord, Records.validateLists, bind_ok, require_ok, exists_unit]
    at hvalid
  obtain ⟨-, -, -, -, ⟨-, -, -, -, tags, htags, -, -, ⟨-, hall⟩, -⟩, -⟩ := hvalid
  rw [Json.getD, hx, Option.getD_some] at htags
  cases x with
  | null => exact Or.inl hx
  | arr xs =>
    obtain rfl := Except.ok.inj htags
    refine Or.inr ⟨xs, hx, fun y hy => ?_⟩
    have hy := List.all_eq_true.mp hall y hy
    cases y with
    | str s => exact ⟨s, rfl⟩
    | _ => cases hy
  | _ => exact (raise_ne_ok htags).elim

theorem tagSet_of_tagged (h : r.Tagged) : tagSet r.body = .ok (r.body.items "tags") := by
  obtain hnull | ⟨tags, htags, hall⟩ := r.tags_cases
  · exact absurd hnull h
  · have hitems : r.body.items "tags" = tags := by rw [Json.items, htags]
    have hhash : tags.all Json.hashable = true := by
      apply List.all_eq_true.mpr
      intro x hx
      obtain ⟨s, rfl⟩ := hall x hx
      rfl
    rw [hitems, tagSet, iterateTags, Json.getD, htags, Option.getD_some]
    simp only [Merkle.iterate]
    rw [bind_ok]
    exact ⟨tags, rfl, by rw [bind_ok]; exact ⟨(), require_ok.mpr hhash, rfl⟩⟩

theorem iterateTags_of_not_tagged (h : ¬r.Tagged) :
    iterateTags r.body = raise .typeError "object is not iterable" := by
  rw [iterateTags, Json.getD, not_not.mp h]
  rfl

theorem tagSet_iff : tagSet r.body = .ok tags ↔ r.Tagged ∧ tags = r.body.items "tags" := by
  by_cases h : r.Tagged
  · rw [tagSet_of_tagged h, Except.ok.injEq, eq_comm, and_iff_right h]
  · rw [tagSet, iterateTags_of_not_tagged h]
    exact iff_of_false nofun fun h' => h h'.1

theorem exists_declaredPersonImpact : (∃ i, declaredPersonImpact r.body = .ok i) ↔ r.Tagged := by
  constructor
  · rintro ⟨i, hi⟩
    by_contra h
    rw [declaredPersonImpact, iterateTags_of_not_tagged h] at hi
    cases hi
  · intro h
    have hset := tagSet_of_tagged h
    simp only [tagSet, bind_ok] at hset
    obtain ⟨xs, hxs, -⟩ := hset
    rw [declaredPersonImpact, hxs]
    exact ⟨_, rfl⟩

theorem hasTag_iff : hasTag (r.body.items "tags") tag = true ↔ r.HasTag tag := by
  simp only [hasTag, HasTag, List.any_eq_true, Batches.eqStr_iff]
  exact ⟨fun ⟨x, hx, he⟩ => he ▸ hx, fun h => ⟨_, h, rfl⟩⟩

def action (d : Record) : Action :=
  if hasTag (d.body.items "tags") viewEnableTag then .enableDiscovery
  else if hasTag (d.body.items "tags") viewRestrictTag then .restrictDiscovery
  else .invalid

theorem action_eq_enable : d.action = .enableDiscovery ↔ d.HasTag viewEnableTag := by
  rw [action, ← hasTag_iff]
  split_ifs with h₁ h₂ <;> simp [h₁]

theorem action_eq_restrict (hk : d.kind = "view_decision")
    (h : validateResponsibleRecord d.body = .ok ()) :
    d.action = .restrictDiscovery ↔ d.HasTag viewRestrictTag := by
  simp only [validateResponsibleRecord, bind_ok, tagSet_iff] at h
  obtain ⟨tags, ⟨-, rfl⟩, impact, -, _, -, _, -, h⟩ := h
  have hkind : (d.body.getD "kind" .null).eqStr "view_decision" = true := by
    rw [Json.getD, Json.get_of_text hk (by decide), Option.getD_some]
    exact Batches.eqStr_iff.mpr rfl
  rw [if_pos hkind, require_ok] at h
  rw [action, ← hasTag_iff]
  by_cases he : hasTag (d.body.items "tags") viewEnableTag = true
  · by_cases hr : hasTag (d.body.items "tags") viewRestrictTag = true
    · simp [he, hr] at h
    · simp [he, hr]
  · simp [he]

theorem tagged_of_valid (h : validateResponsibleRecord d.body = .ok ()) : d.Tagged := by
  simp only [validateResponsibleRecord, bind_ok] at h
  obtain ⟨tags, htags, -⟩ := h
  exact (tagSet_iff.mp htags).1

end Record

variable {linked : List Record} {anchored recognised : List PyStr} {heights : PyStr → Option ℤ}
  {chain : Option ℤ} {cooling notice : ℤ}

def Record.Eligible (anchored recognised : List PyStr) (d : Record) : Prop :=
  d.recordId ∈ anchored ∧ d.authorId ∈ recognised

def noticeHeights (linked : List Record) (anchored : List PyStr) (heights : PyStr → Option ℤ) :
    Set ℤ :=
  {h | ∃ n ∈ linked, (n.kind = "person_impact_notice" ∨ n.kind = "restriction_notice") ∧
    n.recordId ∈ anchored ∧ heights n.recordId = some h}

/-- The chain has not left the window that the first notice opened. -/
def Challenged (linked : List Record) (anchored : List PyStr) (heights : PyStr → Option ℤ)
    (chain : Option ℤ) (notice : ℤ) : Prop :=
  ∃ c m, chain = some c ∧ IsLeast (noticeHeights linked anchored heights) m ∧ c < m + max 0 notice

def Cooled (r : Record) (heights : PyStr → Option ℤ) (chain : Option ℤ) (cooling : ℤ) : Prop :=
  ∃ c h, chain = some c ∧ heights r.recordId = some h ∧ max 0 cooling ≤ max 0 (c - h)

def Decided (linked : List Record) (anchored recognised : List PyStr) (action : Action) : Prop :=
  ∃ d ∈ linked, d.kind = "view_decision" ∧ d.action = action ∧ d.Eligible anchored recognised

/-- Everything that listing needs but for the window. -/
structure Listable (r : Record) (linked : List Record) (anchored recognised : List PyStr)
    (heights : PyStr → Option ℤ) (chain : Option ℤ) (cooling : ℤ) : Prop where
  tagged : r.Tagged
  decisions : ∀ d ∈ linked, d.kind = "view_decision" → d.Tagged
  published : r.recordId ∈ anchored
  unrestricted : ∀ n ∈ linked, n.kind = "restriction_notice" → ¬n.Eligible anchored recognised
  undecided : ¬Decided linked anchored recognised .restrictDiscovery
  free : declaredPersonImpact r.body = .ok (some "none") ∨
    Cooled r heights chain cooling ∧ Decided linked anchored recognised .enableDiscovery

def Listed (r : Record) (linked : List Record) (anchored recognised : List PyStr)
    (heights : PyStr → Option ℤ) (chain : Option ℤ) (cooling notice : ℤ) : Prop :=
  ∃ v, assessResponsiblePublication r linked anchored heights chain recognised cooling notice =
    .ok v ∧ v.listed = true

omit [Ed25519] in
theorem head?_insertionSort {xs : List ℤ} {m : ℤ} :
    (xs.insertionSort (· ≤ ·)).head? = some m ↔ IsLeast {x | x ∈ xs} m := by
  have hmem : ∀ x, x ∈ xs.insertionSort (· ≤ ·) ↔ x ∈ xs := fun x => List.mem_insertionSort _
  have hsorted := List.pairwise_insertionSort (α := ℤ) (· ≤ ·) xs
  cases hs : xs.insertionSort (· ≤ ·) with
  | nil =>
    rw [hs] at hmem
    refine iff_of_false nofun fun h => ?_
    exact List.not_mem_nil ((hmem m).mpr h.1)
  | cons x rest =>
    rw [hs] at hmem hsorted
    rw [List.head?_cons, Option.some.injEq]
    have hleast : IsLeast {x | x ∈ xs} x := by
      refine ⟨(hmem x).mp List.mem_cons_self, fun y hy => ?_⟩
      rcases List.mem_cons.mp ((hmem y).mpr hy) with rfl | hy
      · exact le_rfl
      · exact List.rel_of_pairwise_cons hsorted hy
    exact ⟨fun h => h ▸ hleast, fun h => hleast.unique h⟩

theorem mem_ofKind {kind : PyStr} (hk : kind ∈ contextKinds) :
    r ∈ ofKind linked kind ↔ r ∈ linked ∧ r.kind = kind := by
  simp only [ofKind, List.mem_filter, decide_eq_true_eq, and_assoc]
  constructor
  · rintro ⟨hr, -, h⟩
    exact ⟨hr, h⟩
  · rintro ⟨hr, rfl⟩
    exact ⟨hr, hk, rfl⟩

theorem mem_anchoredNoticeHeights {h : ℤ} :
    h ∈ anchoredNoticeHeights (ofKind linked "person_impact_notice" ++
      ofKind linked "restriction_notice") anchored heights ↔
      h ∈ noticeHeights linked anchored heights := by
  simp only [anchoredNoticeHeights, List.mem_insertionSort, List.mem_filterMap, List.mem_filter,
    List.mem_append, decide_eq_true_eq, noticeHeights, Set.mem_ofPred_eq]
  rw [exists_congr fun n => ?_]
  rw [mem_ofKind (by decide), mem_ofKind (by decide)]
  tauto

theorem head?_anchoredNoticeHeights {m : ℤ} :
    (anchoredNoticeHeights (ofKind linked "person_impact_notice" ++
      ofKind linked "restriction_notice") anchored heights).head? = some m ↔
      IsLeast (noticeHeights linked anchored heights) m := by
  have hset : {x | x ∈ ((ofKind linked "person_impact_notice" ++
      ofKind linked "restriction_notice").filter (·.recordId ∈ anchored)).filterMap fun n =>
        heights n.recordId} = noticeHeights linked anchored heights := by
    ext x
    rw [← mem_anchoredNoticeHeights, anchoredNoticeHeights, List.mem_insertionSort]
    rfl
  rw [anchoredNoticeHeights, head?_insertionSort, hset]

theorem challengeWindowAt_active :
    (challengeWindowAt (anchoredNoticeHeights (ofKind linked "person_impact_notice" ++
      ofKind linked "restriction_notice") anchored heights) chain notice).active = true ↔
      Challenged linked anchored heights chain notice := by
  cases chain with
  | none => exact iff_of_false nofun fun ⟨c, m, hc, _⟩ => nomatch hc
  | some c =>
    cases hm : (anchoredNoticeHeights (ofKind linked "person_impact_notice" ++
        ofKind linked "restriction_notice") anchored heights).head? with
    | none =>
      rw [challengeWindowAt, hm]
      refine iff_of_false nofun fun ⟨_, m, _, hleast, _⟩ => ?_
      rw [← head?_anchoredNoticeHeights, hm] at hleast
      cases hleast
    | some m =>
      rw [challengeWindowAt, hm]
      change decide (c < m + max 0 notice) = true ↔ _
      rw [decide_eq_true_iff]
      constructor
      · exact fun hlt => ⟨c, m, rfl, head?_anchoredNoticeHeights.mp hm, hlt⟩
      · rintro ⟨_, m', hc, hleast, hlt⟩
        obtain rfl := Option.some.inj hc
        rw [← head?_anchoredNoticeHeights, hm, Option.some.injEq] at hleast
        rwa [hleast]

/-- One decision is accepted if it is eligible, and an enabling one only after cooling. -/
theorem evaluateDecision_of_tagged {complete : Bool} {acc : Decisions} (h : d.Tagged) :
    ∃ acc', evaluateDecision anchored recognised complete acc d = .ok acc' ∧
      (acc'.acceptedRestrict.isSome ↔ acc.acceptedRestrict.isSome ∨
        d.action = .restrictDiscovery ∧ d.Eligible anchored recognised) ∧
      (acc'.acceptedEnable.isSome ↔ acc.acceptedEnable.isSome ∨ complete = true ∧
        d.action = .enableDiscovery ∧ d.Eligible anchored recognised) := by
  have heligible : (decide (d.recordId ∈ anchored) && decide (d.authorId ∈ recognised)) = true ↔
      d.Eligible anchored recognised := by
    simp only [Bool.and_eq_true, decide_eq_true_eq, Record.Eligible]
  have haction : (if hasTag (d.body.items "tags") viewEnableTag then Action.enableDiscovery
      else if hasTag (d.body.items "tags") viewRestrictTag then .restrictDiscovery
      else .invalid) = d.action := rfl
  rw [evaluateDecision, Record.tagSet_of_tagged h]
  change ∃ acc', (if (!(decide (d.recordId ∈ anchored) && decide (d.authorId ∈ recognised))) = true
    then _ else _ : Py Decisions) = .ok acc' ∧ _
  by_cases he : d.Eligible anchored recognised
  · rw [if_neg (by simp [heligible.mpr he])]
    rw [haction]
    cases ha : d.action with
    | enableDiscovery => cases complete <;> exact ⟨_, rfl, by simp [he]⟩
    | restrictDiscovery => exact ⟨_, rfl, by simp [he]⟩
    | invalid => exact ⟨_, rfl, by simp⟩
  · rw [if_pos (by rwa [Bool.not_eq_true', ← Bool.not_eq_true, heligible])]
    exact ⟨_, rfl, by simp [he]⟩

theorem evaluateDecision_of_not_tagged {complete : Bool} {acc acc' : Decisions}
    (h : ¬d.Tagged) : evaluateDecision anchored recognised complete acc d ≠ .ok acc' := by
  rw [evaluateDecision, tagSet, Record.iterateTags_of_not_tagged h]
  rintro ⟨⟩

theorem foldlM_evaluateDecision {complete : Bool} {ds : List Record} {acc acc' : Decisions}
    (h : ds.foldlM (evaluateDecision anchored recognised complete) acc = .ok acc') :
    (∀ d ∈ ds, d.Tagged) ∧
      (acc'.acceptedRestrict.isSome ↔ acc.acceptedRestrict.isSome ∨
        ∃ d ∈ ds, d.action = .restrictDiscovery ∧ d.Eligible anchored recognised) ∧
      (acc'.acceptedEnable.isSome ↔ acc.acceptedEnable.isSome ∨ complete = true ∧
        ∃ d ∈ ds, d.action = .enableDiscovery ∧ d.Eligible anchored recognised) := by
  induction ds generalizing acc with
  | nil =>
    obtain rfl := Except.ok.inj h
    simp
  | cons d ds ih =>
    rw [List.foldlM_cons, bind_ok] at h
    obtain ⟨acc₁, hd, hds⟩ := h
    have htagged : d.Tagged := by
      by_contra hnot
      exact evaluateDecision_of_not_tagged hnot hd
    obtain ⟨acc₂, hd', hrestrict, henable⟩ :=
      @evaluateDecision_of_tagged _ _ anchored recognised complete acc htagged
    obtain rfl := Except.ok.inj (hd.symm.trans hd')
    obtain ⟨hall, hrestrict', henable'⟩ := ih hds
    rw [List.forall_mem_cons, hrestrict', hrestrict, henable', henable]
    simp only [List.exists_mem_cons_iff]
    refine ⟨⟨htagged, hall⟩, or_assoc, ?_⟩
    rw [or_assoc, and_or_left]

theorem exists_foldlM_evaluateDecision {complete : Bool} {ds : List Record} {acc : Decisions}
    (h : ∀ d ∈ ds, d.Tagged) :
    ∃ acc', ds.foldlM (evaluateDecision anchored recognised complete) acc = .ok acc' := by
  induction ds generalizing acc with
  | nil => exact ⟨acc, rfl⟩
  | cons d ds ih =>
    rw [List.forall_mem_cons] at h
    obtain ⟨acc₁, hd, -⟩ := @evaluateDecision_of_tagged _ _ anchored recognised complete acc h.1
    obtain ⟨acc', hds⟩ := @ih acc₁ h.2
    exact ⟨acc', by rw [List.foldlM_cons, hd]; exact hds⟩

theorem coolingAt_complete :
    (coolingAt (heights r.recordId) chain cooling).complete = true ↔
      Cooled r heights chain cooling := by
  cases chain with
  | none => exact iff_of_false nofun fun ⟨c, h, hc, _⟩ => nomatch hc
  | some c =>
    cases hh : heights r.recordId with
    | none => exact iff_of_false nofun fun ⟨c, h, _, hh', _⟩ => nomatch hh.symm.trans hh'
    | some h =>
      change decide (max 0 cooling ≤ max 0 (c - h)) = true ↔ _
      rw [decide_eq_true_iff]
      constructor
      · exact fun hle => ⟨c, h, rfl, hh, hle⟩
      · rintro ⟨_, _, hc, hh', hle⟩
        obtain rfl := Option.some.inj hc
        obtain rfl := Option.some.inj (hh.symm.trans hh')
        exact hle

omit [Ed25519] in
theorem textIf_eq_nil {p : Prop} [Decidable p] {text : PyStr} : textIf p text = [] ↔ ¬p := by
  unfold textIf
  split_ifs with h <;> simp [h]

theorem initialReasons_eq_nil {published active : Bool} {impact : Option PyStr}
    {restrictions : List Record} : initialReasons published impact active restrictions = [] ↔
      published = true ∧ impact = some (ascii "none") ∧ active = false ∧ restrictions = [] := by
  have himpact : impactReason impact = [] ↔ impact = some (ascii "none") := by
    cases impact with
    | none => simp [impactReason]
    | some i => simp [impactReason, textIf_eq_nil]
  simp only [initialReasons, List.append_eq_nil_iff, textIf_eq_nil, himpact, and_assoc,
    Bool.not_eq_false, Bool.not_eq_true, ne_eq, not_not]

theorem listed_discoveryState {published active : Bool} {impact : Option PyStr}
    {restrictions : List Record} {decisions : Decisions} :
    (discoveryState published
      (verdict (initialReasons published impact active restrictions) decisions restrictions
        active).1 impact ∈ [DiscoveryState.discoverable, .discoverableByAccountableDecision]) ↔
      published = true ∧ decisions.acceptedRestrict = none ∧ restrictions = [] ∧ active = false ∧
        (impact = some (ascii "none") ∨ decisions.acceptedEnable.isSome) := by
  have hstate : ∀ shielded, discoveryState published shielded impact ∈
      [DiscoveryState.discoverable, .discoverableByAccountableDecision] ↔
        published = true ∧ shielded = false := by
    intro shielded
    cases published <;> cases shielded <;> simp only [discoveryState] <;> split_ifs <;> simp_all
  rw [hstate, verdict]
  have hreasons := @initialReasons_eq_nil _ published active impact restrictions
  split_ifs with hrestrict henable
  · simp [Option.isSome_iff_ne_none.mp hrestrict]
  · obtain ⟨-, hsome, hnil, hwindow⟩ := henable
    simp only [Option.not_isSome_iff_eq_none] at hrestrict
    simp [hrestrict, hsome, hnil, hwindow]
  · simp only [Option.not_isSome_iff_eq_none] at hrestrict
    simp only [decide_eq_false_iff_not, not_not, hreasons, hrestrict, true_and]
    constructor
    · rintro ⟨hp, -, hi, ha, hr⟩
      exact ⟨hp, hr, ha, Or.inl hi⟩
    · rintro ⟨hp, hr, ha, hi | hsome⟩
      · exact ⟨hp, hp, hi, ha, hr⟩
      · by_cases hnil : initialReasons published impact active restrictions = []
        · exact ⟨hp, hreasons.mp hnil⟩
        · exact absurd ⟨hnil, hsome, hr, ha⟩ henable

theorem listed_iff_of_ok {v : Responsible.View} (hv : assessResponsiblePublication r linked anchored
    heights chain recognised cooling notice = .ok v) : v.listed = true ↔
      Listable r linked anchored recognised heights chain cooling ∧
        ¬Challenged linked anchored heights chain notice := by
  simp only [assessResponsiblePublication, bind_ok] at hv
  obtain ⟨impact, himpact, decisions, hdecisions, hv⟩ := hv
  obtain rfl := Except.ok.inj hv
  obtain ⟨htagged, hrestrict, henable⟩ := foldlM_evaluateDecision hdecisions
  have hdecided : ∀ action, (∃ d ∈ ofKind linked "view_decision", d.action = action ∧
      d.Eligible anchored recognised) ↔ Decided linked anchored recognised action := by
    intro action
    simp only [mem_ofKind (show ascii "view_decision" ∈ contextKinds by decide), Decided, and_assoc]
  have hrestrictions : (ofKind linked "restriction_notice").filter (fun n =>
      n.recordId ∈ anchored ∧ n.authorId ∈ recognised) = [] ↔
        ∀ n ∈ linked, n.kind = "restriction_notice" → ¬n.Eligible anchored recognised := by
    simp only [List.filter_eq_nil_iff, decide_eq_true_eq, Record.Eligible,
      mem_ofKind (show ascii "restriction_notice" ∈ contextKinds by decide), and_imp]
  rw [Responsible.View.listed, decide_eq_true_iff]
  refine listed_discoveryState.trans ?_
  have hnone : decisions.acceptedRestrict = none ↔
      ¬Decided linked anchored recognised .restrictDiscovery := by
    rw [← hdecided, ← Option.not_isSome_iff_eq_none, hrestrict]
    simp
  have hsome : decisions.acceptedEnable.isSome ↔ Cooled r heights chain cooling ∧
      Decided linked anchored recognised .enableDiscovery := by
    rw [← hdecided, henable, coolingAt_complete]
    simp
  have hchallenged := @challengeWindowAt_active _ linked anchored heights chain notice
  rw [hnone, hsome, hrestrictions, decide_eq_true_iff, ← Bool.not_eq_true, hchallenged]
  constructor
  · rintro ⟨hp, hd, hn, hc, hfree⟩
    refine ⟨⟨Record.exists_declaredPersonImpact.mp ⟨impact, himpact⟩, ?_, hp, hn, hd, ?_⟩, hc⟩
    · exact fun d hd hk => htagged d ((mem_ofKind (by decide)).mpr ⟨hd, hk⟩)
    · rcases hfree with rfl | hcooled
      · exact Or.inl himpact
      · exact Or.inr hcooled
  · rintro ⟨h, hc⟩
    refine ⟨h.published, h.undecided, h.unrestricted, hc, ?_⟩
    exact h.free.imp_left fun hi => Except.ok.inj (himpact.symm.trans hi)

theorem listed_iff_listable :
    Listed r linked anchored recognised heights chain cooling notice ↔
      Listable r linked anchored recognised heights chain cooling ∧
        ¬Challenged linked anchored heights chain notice := by
  constructor
  · rintro ⟨v, hv, hlisted⟩
    exact (listed_iff_of_ok hv).mp hlisted
  · rintro ⟨h, hc⟩
    obtain ⟨impact, himpact⟩ := Record.exists_declaredPersonImpact.mpr h.tagged
    obtain ⟨decisions, hdecisions⟩ := @exists_foldlM_evaluateDecision _ anchored recognised
      (coolingAt (heights r.recordId) chain cooling).complete (ofKind linked "view_decision")
      ⟨none, none, []⟩ fun d hd => by
        obtain ⟨hd, hk⟩ := (mem_ofKind (by decide)).mp hd
        exact h.decisions d hd hk
    have hv : ∃ v, assessResponsiblePublication r linked anchored heights chain recognised cooling
        notice = .ok v := by
      exact ⟨_, bind_ok.mpr ⟨impact, himpact, bind_ok.mpr ⟨decisions, hdecisions, rfl⟩⟩⟩
    obtain ⟨v, hv⟩ := hv
    exact ⟨v, hv, (listed_iff_of_ok hv).mpr ⟨h, hc⟩⟩

structure Discoverable (r : Record) (linked : List Record) (anchored recognised : List PyStr)
    (heights : PyStr → Option ℤ) (chain : Option ℤ) (cooling notice : ℤ) : Prop where
  published : r.recordId ∈ anchored
  unrestricted : ∀ n ∈ linked, n.kind = "restriction_notice" → ¬n.Eligible anchored recognised
  undecided : ∀ d ∈ linked, d.kind = "view_decision" → d.HasTag viewRestrictTag →
    ¬d.Eligible anchored recognised
  unchallenged : ¬Challenged linked anchored heights chain notice
  free : declaredPersonImpact r.body = .ok (some "none") ∨ Cooled r heights chain cooling ∧
    ∃ d ∈ linked, d.kind = "view_decision" ∧ d.HasTag viewEnableTag ∧ d.Eligible anchored recognised

theorem discoverable_iff
    (hd : ∀ d ∈ linked, d.kind = "view_decision" → validateResponsibleRecord d.body = .ok ())
    (ht : r.Tagged) : Discoverable r linked anchored recognised heights chain cooling notice ↔
      Listable r linked anchored recognised heights chain cooling ∧
        ¬Challenged linked anchored heights chain notice := by
  constructor
  · intro h
    refine ⟨⟨ht, fun d hm hk => Record.tagged_of_valid (hd d hm hk), h.published, h.unrestricted,
      ?_, h.free.imp_right ?_⟩, h.unchallenged⟩
    · rintro ⟨d, hm, hk, ha, he⟩
      exact h.undecided d hm hk ((Record.action_eq_restrict hk (hd d hm hk)).mp ha) he
    · rintro ⟨hc, d, hm, hk, ha, he⟩
      exact ⟨hc, d, hm, hk, Record.action_eq_enable.mpr ha, he⟩
  · rintro ⟨h, hc⟩
    refine ⟨h.published, h.unrestricted, ?_, hc, h.free.imp_right ?_⟩
    · intro d hm hk ha he
      exact h.undecided ⟨d, hm, hk, (Record.action_eq_restrict hk (hd d hm hk)).mpr ha, he⟩
    · rintro ⟨hc, d, hm, hk, ha, he⟩
      exact ⟨hc, d, hm, hk, Record.action_eq_enable.mp ha, he⟩

theorem Discoverable.congr {linked' : List Record}
    (hm : ∀ x : Record, x.recordId ∈ anchored → (x ∈ linked ↔ x ∈ linked'))
    (h : Discoverable r linked anchored recognised heights chain cooling notice) :
    Discoverable r linked' anchored recognised heights chain cooling notice := by
  have hheights : noticeHeights linked' anchored heights = noticeHeights linked anchored heights := by
    ext x
    constructor
    · rintro ⟨n, hn, hk, ha, hx⟩
      exact ⟨n, (hm n ha).mpr hn, hk, ha, hx⟩
    · rintro ⟨n, hn, hk, ha, hx⟩
      exact ⟨n, (hm n ha).mp hn, hk, ha, hx⟩
  constructor
  · exact h.published
  · exact fun n hn hk he => h.unrestricted n ((hm n he.1).mpr hn) hk he
  · exact fun d hd hk ht he => h.undecided d ((hm d he.1).mpr hd) hk ht he
  · rw [Challenged, hheights]
    exact h.unchallenged
  · apply h.free.imp_right
    rintro ⟨hc, d, hd, hk, ht, he⟩
    exact ⟨hc, d, (hm d he.1).mp hd, hk, ht, he⟩

/-- The code follows the rule exactly if the record's tags are a list, or the rule does not list it
either; and it looks at the anchored links only, in any order. -/
theorem listed_iff_discoverable_iff
    (hd : ∀ d ∈ linked, d.kind = "view_decision" → validateResponsibleRecord d.body = .ok ()) :
    ((Listed r linked anchored recognised heights chain cooling notice ↔
        Discoverable r linked anchored recognised heights chain cooling notice) ↔
      r.Tagged ∨ ¬Discoverable r linked anchored recognised heights chain cooling notice) ∧
    ∀ linked' : List Record,
      (∀ d ∈ linked', d.kind = "view_decision" → validateResponsibleRecord d.body = .ok ()) →
      (∀ x : Record, x.recordId ∈ anchored → (x ∈ linked ↔ x ∈ linked')) →
      (Listed r linked anchored recognised heights chain cooling notice ↔
        Listed r linked' anchored recognised heights chain cooling notice) := by
  have hlisted : ∀ links : List Record,
      (∀ d ∈ links, d.kind = "view_decision" → validateResponsibleRecord d.body = .ok ()) →
      (Listed r links anchored recognised heights chain cooling notice ↔
        r.Tagged ∧ Discoverable r links anchored recognised heights chain cooling notice) := by
    intro links hlinks
    rw [listed_iff_listable]
    constructor
    · exact fun h => ⟨h.1.tagged, (discoverable_iff hlinks h.1.tagged).mpr h⟩
    · exact fun ⟨ht, h⟩ => (discoverable_iff hlinks ht).mp h
  constructor
  · rw [hlisted linked hd]
    tauto
  · intro linked' hd' hm
    rw [hlisted linked hd, hlisted linked' hd']
    apply and_congr_right
    intro _
    exact ⟨fun h => h.congr hm, fun h => h.congr fun x hx => (hm x hx).symm⟩

theorem Cooled.mono {c c' : ℤ} (hc : c ≤ c') (h : Cooled r heights (some c) cooling) :
    Cooled r heights (some c') cooling := by
  obtain ⟨_, o, he, ho, hle⟩ := h
  obtain rfl := Option.some.inj he
  exact ⟨c', o, rfl, ho, hle.trans (max_le_max le_rfl (by omega))⟩

theorem Listable.mono {c c' : ℤ} (hc : c ≤ c')
    (h : Listable r linked anchored recognised heights (some c) cooling) :
    Listable r linked anchored recognised heights (some c') cooling :=
  { h with free := h.free.imp_right (And.imp_left (Cooled.mono hc)) }

/-- The known heights of the anchored notices that are not below the record's own. -/
def lateNoticeHeights (r : Record) (linked : List Record) (anchored : List PyStr)
    (heights : PyStr → Option ℤ) : Set ℤ :=
  {x ∈ noticeHeights linked anchored heights | ∃ h, heights r.recordId = some h ∧ h ≤ x}

/-- The window of the first notice that is not below the record is kept exactly if no notice is
below it, or if the record could not be listed at the end of the window anyway. -/
theorem not_listed_in_window_iff {g : ℤ} (hN : 0 < notice)
    (hg : IsLeast (lateNoticeHeights r linked anchored heights) g) :
    (∀ c, g ≤ c → c < g + notice →
      ¬Listed r linked anchored recognised heights (some c) cooling notice) ↔
    noticeHeights linked anchored heights ⊆ lateNoticeHeights r linked anchored heights ∨
      ¬Listable r linked anchored recognised heights (some (g + notice - 1)) cooling := by
  have hmax : max 0 notice = notice := max_eq_right hN.le
  obtain ⟨hgn, h, hheight, hhg⟩ := hg.1
  simp only [listed_iff_listable, not_and_not_right]
  constructor
  · intro hkept
    by_contra hnot
    rw [not_or, not_not, Set.not_subset] at hnot
    obtain ⟨⟨x, hx, hearly⟩, hlistable⟩ := hnot
    obtain ⟨_, m, he, hm, hc⟩ := hkept (g + notice - 1) (by omega) (by omega) hlistable
    obtain rfl := Option.some.inj he
    have hmx := hm.2 hx
    have hxh : x < h := not_le.mp fun hle => hearly ⟨hx, h, hheight, hle⟩
    omega
  · rintro (hall | hnot) c hlow hhigh hlistable
    · have hleast : IsLeast (noticeHeights linked anchored heights) g :=
        ⟨hgn, fun x hx => hg.2 (hall hx)⟩
      exact ⟨c, g, rfl, hleast, hmax.symm ▸ hhigh⟩
    · exact absurd (hlistable.mono (by omega)) hnot

end Rule

section Witness

attribute [local instance] feedKeys

def nullTagsClaim : Record where
  body := sampleRecord (.int 1) "claim"
    .null .null
    "FUwfKe7yTGKwwbECgdf2htW2Y/yb0btvToJYysd+ouzeZXxdXY8/Bk7n4oJQhHgKUXiCLWPZ32SJiM/tyO+0Aw=="
    "89381aea735303f3a6fef381d494ae30ea15ea5527bf3cb3594d5a8bcdc86d57"
  valid := Records.sampleRecord_valid (by decide +kernel)

def enablingDecision : Record where
  body := sampleRecord (.int 1) "view_decision"
    (.str "89381aea735303f3a6fef381d494ae30ea15ea5527bf3cb3594d5a8bcdc86d57") (.arr [.str "hap:view:enable-discovery"])
    "GHEdX2bqg5Y8cA6Yy03AAsAElGsI5I0d6hEl8qnq0N7fqSo1lrKG6DCAtLErEWBrJhmpqCk61A++RBFH2QiGAA=="
    "5c978f3df2d0aa49f223225ac7127effef44b50b8a2c26b5606d4b18a420b622"
  valid := Records.sampleRecord_valid (by decide +kernel)

def feedHeights (recordId : PyStr) : Option ℤ :=
  ([(nullTagsClaim.recordId, 100), (enablingDecision.recordId, 101), (harmlessClaim.recordId, 100),
    (impactNotice.recordId, 90), (restrictionNotice.recordId, 101)] : List (PyStr × ℤ)).lookup
      recordId

def feedAnchored : List PyStr :=
  [nullTagsClaim, enablingDecision, harmlessClaim, impactNotice, restrictionNotice].map
    Record.recordId

theorem enablingDecision_responsible : ∀ d ∈ [enablingDecision], d.kind = "view_decision" →
    validateResponsibleRecord d.body = .ok () := by
  intro d hd _
  obtain rfl := List.mem_singleton.mp hd
  decide +kernel

theorem listed_iff_discoverable_iff_sample :
    (Listed harmlessClaim [enablingDecision] feedAnchored [] feedHeights (some 110) 6 6 ↔
        Discoverable harmlessClaim [enablingDecision] feedAnchored [] feedHeights (some 110) 6 6) ↔
      harmlessClaim.Tagged ∨
        ¬Discoverable harmlessClaim [enablingDecision] feedAnchored [] feedHeights (some 110) 6 6 :=
  (listed_iff_discoverable_iff enablingDecision_responsible).1

/-- A claim whose tags are null is not listed, although the rule lists it. -/
theorem null_tags_not_listed :
    (∀ d ∈ [enablingDecision], d.kind = "view_decision" →
      validateResponsibleRecord d.body = .ok ()) ∧
    Discoverable nullTagsClaim [enablingDecision] feedAnchored [enablingDecision.authorId]
      feedHeights (some 110) 6 6 ∧
    assessResponsiblePublication nullTagsClaim [enablingDecision] feedAnchored feedHeights
      (some 110) [enablingDecision.authorId] 6 6 =
        raise .typeError "object is not iterable" := by
  have hkind : enablingDecision.kind = "view_decision" := by decide +kernel
  refine ⟨enablingDecision_responsible, ?_, rfl⟩
  constructor
  · decide +kernel
  · intro n hn hk
    obtain rfl := List.mem_singleton.mp hn
    exact absurd (hkind.symm.trans hk) (by decide)
  · intro d hd _ ht
    obtain rfl := List.mem_singleton.mp hd
    rw [← Record.hasTag_iff] at ht
    exact absurd ht (by decide +kernel)
  · rintro ⟨c, m, -, ⟨⟨n, hn, hk, -⟩, -⟩, -⟩
    obtain rfl := List.mem_singleton.mp hn
    rw [hkind] at hk
    exact absurd hk (by decide)
  · refine Or.inr ⟨⟨110, 100, rfl, by decide +kernel, by decide⟩, enablingDecision,
      List.mem_singleton_self _, hkind, Record.hasTag_iff.mp (by decide +kernel), ?_, ?_⟩
    · decide +kernel
    · exact List.mem_singleton_self _

theorem isLeast_lateNoticeHeights : IsLeast (lateNoticeHeights harmlessClaim
    [impactNotice, restrictionNotice] feedAnchored feedHeights) 101 := by
  have hclaim : feedHeights harmlessClaim.recordId = some 100 := by decide +kernel
  have himpact : feedHeights impactNotice.recordId = some 90 := by decide +kernel
  have hrestriction : feedHeights restrictionNotice.recordId = some 101 := by decide +kernel
  constructor
  · exact ⟨⟨restrictionNotice, by simp, Or.inr (by decide +kernel), by decide +kernel,
      hrestriction⟩, 100, hclaim, by decide⟩
  · rintro x ⟨⟨n, hn, -, -, hx⟩, h, hh, hle⟩
    obtain rfl := Option.some.inj (hclaim.symm.trans hh)
    simp only [List.mem_cons, List.not_mem_nil, or_false] at hn
    rcases hn with rfl | rfl
    · obtain rfl := Option.some.inj (himpact.symm.trans hx)
      exact absurd hle (by decide)
    · exact (Option.some.inj (hrestriction.symm.trans hx)).le

theorem not_listed_in_window_iff_sample :
    (∀ c, 101 ≤ c → c < 101 + 6 → ¬Listed harmlessClaim [impactNotice, restrictionNotice]
      feedAnchored [] feedHeights (some c) 6 6) ↔
    noticeHeights [impactNotice, restrictionNotice] feedAnchored feedHeights ⊆
        lateNoticeHeights harmlessClaim [impactNotice, restrictionNotice] feedAnchored feedHeights ∨
      ¬Listable harmlessClaim [impactNotice, restrictionNotice] feedAnchored [] feedHeights
        (some (101 + 6 - 1)) 6 :=
  not_listed_in_window_iff (by decide) isLeast_lateNoticeHeights

/-- A notice that was anchored before the claim has used up the window; the claim is listed within
six blocks of the first notice after it. -/
theorem spent_window_listed : harmlessClaim.kind = "claim" ∧
    harmlessClaim.recordId ∈ feedAnchored ∧ feedHeights harmlessClaim.recordId = some 100 ∧
    IsLeast (lateNoticeHeights harmlessClaim [impactNotice, restrictionNotice] feedAnchored
      feedHeights) 101 ∧
    Listed harmlessClaim [impactNotice, restrictionNotice] feedAnchored [] feedHeights (some 103)
      6 6 := by
  refine ⟨by decide +kernel, by decide +kernel, by decide +kernel, isLeast_lateNoticeHeights, ?_⟩
  have hlisted : (assessResponsiblePublication harmlessClaim [impactNotice, restrictionNotice]
      feedAnchored feedHeights (some 103) [] 6 6).toOption.any Responsible.View.listed = true := by
    decide +kernel
  obtain ⟨v, hv, hl⟩ := (Option.any_eq_true _ _).mp hlisted
  refine ⟨v, ?_, hl⟩
  cases hres : assessResponsiblePublication harmlessClaim [impactNotice, restrictionNotice]
      feedAnchored feedHeights (some 103) [] 6 6 with
  | error e => rw [hres] at hv; cases hv
  | ok w => rw [hres] at hv; rw [Option.some.inj hv]

end Witness

end HistoryAnchor
