import HistoryAnchor.Exchange.Serving
import HistoryAnchor.Protocol.Limits
import HistoryAnchor.Python.Numbers
import HistoryAnchor.Sync.Peers

/-! # The size of a page

A page of records is sent as compact JSON, and a client reads no more than its limit.
Whether a full page fits depends on the records: the limit that a node is configured with
leaves room for any page, the default of the client does not.
-/

namespace HistoryAnchor

open Python

/-- The page as `/v1/sync/records` returns it. -/
def pageContent (items : List Json) (seq : ℤ) (hasMore : Bool) : Json :=
  .obj [("items", .arr items), ("cursor", .obj [("seq", .int seq)]), ("has_more", .bool hasMore)]

def render (content : Json) : Py Bytes :=
  match utf8 content.dump with
  | some body => .ok body
  | none => raise .unicodeEncodeError "'utf-8' codec can't encode: surrogates not allowed"

/-- The default of `max_response_bytes` in `sync_peer`. -/
def maxResponseBytes : ℤ := 8388608

/-- The default of the setting `max_sync_response_bytes`. -/
def maxSyncResponseBytes : ℤ := 67108864

def tooLarge (maxBytes : ℤ) : PyStr :=
  ascii "peer response exceeds " ++ decimalInt maxBytes ++ ascii " bytes"

/-- The declared length. The exception of `int` quotes the text, and is raised again if it has the
word in it. -/
def checkLength (maxBytes : ℤ) (declared : PyStr) : Py Unit :=
  match int declared with
  | some n => require (n ≤ maxBytes) .valueError (tooLarge maxBytes)
  | none => require (¬ ascii "exceeds" <:+: declared) .valueError
      (ascii "invalid literal for int() with base 10: " ++ declared)

/-- `_get_json` up to `json.loads`: the body in the chunks in which it arrives. -/
def readBody (maxBytes : ℤ) (contentLength : Option PyStr) (chunks : List Bytes) : Py Bytes := do
  forM contentLength.toList (checkLength maxBytes)
  chunks.foldlM (fun body chunk => do
    require ((body ++ chunk).length ≤ maxBytes) .valueError (tooLarge maxBytes)
    return body ++ chunk) []

def Honest (contentLength : Option PyStr) (body : Bytes) : Prop :=
  ∀ declared, contentLength = some declared → int declared = some (body.length : ℤ)

theorem foldlM_chunks {maxBytes : ℤ} (chunks : List Bytes) {body : Bytes}
    (hle : (body.length : ℤ) ≤ maxBytes) :
    (∃ b, chunks.foldlM (fun body chunk => do
      require (((body ++ chunk).length : ℤ) ≤ maxBytes) .valueError (tooLarge maxBytes)
      return body ++ chunk) body = Except.ok b) ↔
      ((body ++ chunks.flatten).length : ℤ) ≤ maxBytes := by
  induction chunks generalizing body with
  | nil =>
    rw [List.flatten_nil, List.append_nil]
    exact ⟨fun _ => hle, fun _ => ⟨body, rfl⟩⟩
  | cons chunk chunks ih =>
    rw [List.foldlM_cons, List.flatten_cons, ← List.append_assoc]
    by_cases hc : ((body ++ chunk).length : ℤ) ≤ maxBytes
    · rw [require, if_pos hc]
      exact ih hc
    · rw [require, if_neg hc]
      apply iff_of_false
      · rintro ⟨_, h⟩
        exact raise_ne_ok h
      · intro h
        rw [List.length_append] at h
        omega

theorem readBody_iff {maxBytes : ℤ} (hmax : 0 ≤ maxBytes) {contentLength : Option PyStr}
    {chunks : List Bytes} {body : Bytes} (hbody : chunks.flatten = body)
    (hhonest : Honest contentLength body) :
    (∃ b, readBody maxBytes contentLength chunks = .ok b) ↔ (body.length : ℤ) ≤ maxBytes := by
  have hfold := foldlM_chunks chunks (show (([] : Bytes).length : ℤ) ≤ maxBytes from hmax)
  rw [List.nil_append, hbody] at hfold
  have hlength : (body.length : ℤ) ≤ maxBytes →
      forM contentLength.toList (checkLength maxBytes) = .ok () := by
    intro hle
    apply forM_ok.mpr
    intro declared hd
    rw [checkLength, hhonest declared (Option.mem_toList.mp hd)]
    exact require_ok.mpr hle
  rw [readBody, exists_bind_ok]
  constructor
  · rintro ⟨-, -, h⟩
    exact hfold.mp h
  · exact fun hle => ⟨(), hlength hle, hfold.mpr hle⟩

def frameWidth (count : ℕ) (seq : ℤ) (hasMore : Bool) : ℕ :=
  (count - 1) + (decimalInt seq).length + (Json.bool hasMore).width + 42

def pageWidth (items : List Json) (seq : ℤ) (hasMore : Bool) : ℕ :=
  (items.map Json.width).sum + frameWidth items.length seq hasMore

theorem width_pageContent (items : List Json) (seq : ℤ) (hasMore : Bool) :
    (pageContent items seq hasMore).width = pageWidth items seq hasMore := by
  have hkeys : Python.width (Json.quote "items") = 7 ∧ Python.width (Json.quote "cursor") = 8 ∧
      Python.width (Json.quote "has_more") = 10 ∧ Python.width (Json.quote "seq") = 5 := by decide
  obtain ⟨hitems, hcursor, hmore, hseq⟩ := hkeys
  have hint : (Json.int seq).width = (decimalInt seq).length := width_decimalInt seq
  rw [pageContent, Json.width_obj (List.cons_ne_nil _ _)]
  simp only [List.map_cons, List.map_nil, List.sum_cons, List.sum_nil, Json.memberWidth_mk]
  rw [Json.width_obj (List.cons_ne_nil _ _), Json.width_arr_eq]
  simp only [List.map_cons, List.map_nil, List.sum_cons, List.sum_nil, Json.memberWidth_mk]
  rw [hitems, hcursor, hmore, hseq, hint, pageWidth, frameWidth]
  omega

theorem Encodes.encodable {d : ℕ} {v : Json} (h : Encodes d v) : Encodable v.dump := by
  induction h with
  | null => exact encodable_of_all (by decide)
  | @bool _ b =>
    cases b with
    | true => exact encodable_of_all (by decide)
    | false => exact encodable_of_all (by decide)
  | @int _ n => exact Json.encodable_decimalInt n
  | str _ hs => exact Json.encodable_quote.mpr hs
  | arr _ _ ih => exact Json.encodable_dump_arr.mpr ih
  | obj _ hkeys _ ih => exact Json.encodable_dump_obj.mpr fun kv hkv => ⟨hkeys kv hkv, ih kv hkv⟩

theorem render_ok {v : Json} (h : Encodable v.dump) :
    ∃ body, render v = .ok body ∧ body.length = v.width := by
  cases hu : utf8 v.dump with
  | none => exact absurd hu (utf8_ne_none.mpr h)
  | some body =>
    refine ⟨body, ?_, length_utf8_eq hu⟩
    rw [render, hu]

theorem length_decimalInt_le {n : ℤ} (h : sqliteInt n) : (decimalInt n).length ≤ 20 := by
  obtain ⟨hle, hlt⟩ := h
  cases n with
  | ofNat n =>
    have hn : (n : ℤ) < 2 ^ 63 := hlt
    exact length_decimal_le (by decide) (show n < 10 ^ 20 by omega)
  | negSucc n =>
    have hn : n + 1 < 10 ^ 19 := by omega
    have hlen := length_decimal_le (by decide) hn
    show (ascii "-" ++ decimal (n + 1)).length ≤ 20
    rw [List.length_append]
    exact Nat.add_le_add (le_refl 1) hlen

theorem recordBounds_width : fieldsWidth Records.recordBounds = 1482539 := by decide +kernel

theorem sqliteInt_pageCursor {rows : List (ℕ × Json)} (hrows : ∀ row ∈ rows, sqliteInt row.1)
    {afterSeq limit : ℤ} (hafter : sqliteInt afterSeq) :
    sqliteInt (pageCursor (pageRows rows afterSeq limit) afterSeq) := by
  unfold pageCursor
  cases hl : (pageRows rows afterSeq limit).getLast? with
  | none => exact hafter
  | some row =>
    have hmem : row ∈ rows :=
      (List.mem_filter.mp (List.mem_of_mem_take (List.mem_of_getLast? hl))).1
    exact hrows row hmem

section Pages

variable [Ed25519] {items : List Json}

theorem render_pageContent
    (hitems : ∀ r ∈ items, Records.validateRecord r true = .ok () ∧ r.WF) (seq : ℤ)
    (hasMore : Bool) : ∃ body, render (pageContent items seq hasMore) = .ok body ∧
      body.length = pageWidth items seq hasMore := by
  have hencodable : Encodable (pageContent items seq hasMore).dump := by
    apply Json.encodable_dump_obj.mpr
    simp only [List.forall_mem_cons]
    refine ⟨⟨encodable_of_all (by decide), Json.encodable_dump_arr.mpr fun r hr => ?_⟩,
      ⟨encodable_of_all (by decide), Json.encodable_dump_obj.mpr ?_⟩,
      ⟨encodable_of_all (by decide), ?_⟩, fun _ h => absurd h List.not_mem_nil⟩
    · obtain ⟨hv, hw⟩ := hitems r hr
      exact (Records.validateRecord_encodes hv hw (by decide : 0 + 3 ≤ 32)).encodable
    · simp only [List.forall_mem_cons]
      exact ⟨⟨encodable_of_all (by decide), Json.encodable_decimalInt seq⟩,
        fun _ h => absurd h List.not_mem_nil⟩
    · cases hasMore with
      | true => exact encodable_of_all (by decide)
      | false => exact encodable_of_all (by decide)
  rw [← width_pageContent]
  exact render_ok hencodable

theorem pageWidth_le (hitems : ∀ r ∈ items, Records.validateRecord r true = .ok () ∧ r.WF) {seq : ℤ}
    (hseq : sqliteInt seq) (hasMore : Bool) :
    pageWidth items seq hasMore ≤ items.length * (fieldsWidth Records.recordBounds + 1) + 67 := by
  have hsum := List.sum_le_card_nsmul (items.map Json.width) (fieldsWidth Records.recordBounds) (by
    intro w hw
    obtain ⟨r, hr, rfl⟩ := List.mem_map.mp hw
    exact Records.width_of_validateRecord (hitems r hr).1 (hitems r hr).2)
  have hmore : (Json.bool hasMore).width ≤ 5 := by cases hasMore <;> decide
  have hdigits := length_decimalInt_le hseq
  rw [List.length_map, smul_eq_mul] at hsum
  rw [pageWidth, frameWidth, Nat.mul_succ]
  omega

/-- A client with the default limit reads a page of records exactly if their encodings leave room
for its frame. Any five records do, and any page is read with the limit that nodes are configured
with. -/
theorem syncPage_fits_iff {rows : List (ℕ × Json)}
    (hrows : ∀ row ∈ rows, Records.validateRecord row.2 true = .ok () ∧ row.2.WF)
    (hseqs : ∀ row ∈ rows, sqliteInt row.1) {afterSeq limit : ℤ} (hafter : sqliteInt afterSeq)
    {page : Json} (hpage : syncPage rows .records afterSeq limit = .ok page) :
    let sent := pageRows rows afterSeq limit
    ∃ body, render page = .ok body ∧
      ((body.length : ℤ) ≤ maxResponseBytes ↔
        (((sent.map fun row => row.2.width).sum + frameWidth sent.length
          (pageCursor sent afterSeq) (sent.length = limit) : ℕ) : ℤ) ≤ maxResponseBytes) ∧
      (∀ contentLength chunks, chunks.flatten = body → Honest contentLength body →
        ((∃ b, readBody maxResponseBytes contentLength chunks = .ok b) ↔
          (body.length : ℤ) ≤ maxResponseBytes)) ∧
      (body.length : ℤ) ≤ maxSyncResponseBytes ∧
      (sent.length ≤ 5 → (body.length : ℤ) ≤ maxResponseBytes) := by
  intro sent
  simp only [syncPage, bind_ok, require_ok, exists_unit] at hpage
  obtain ⟨⟨-, hpos, hlimit⟩, hpage⟩ := hpage
  obtain rfl := Except.ok.inj hpage
  have hitems : ∀ r ∈ sent.map Prod.snd, Records.validateRecord r true = .ok () ∧ r.WF := by
    intro r hr
    obtain ⟨row, hrow, rfl⟩ := List.mem_map.mp hr
    exact hrows row (List.mem_filter.mp (List.mem_of_mem_take hrow)).1
  have hlength : sent.length ≤ 25 := by
    have hlimit' : limit ≤ 25 := hlimit
    have htake : sent.length ≤ limit.toNat := List.length_take_le _ _
    omega
  obtain ⟨body, hrender, hbody⟩ := render_pageContent hitems (pageCursor sent afterSeq)
    (decide ((sent.length : ℤ) = limit))
  have hcursor : sqliteInt (pageCursor sent afterSeq) := sqliteInt_pageCursor hseqs hafter
  have hle := pageWidth_le hitems hcursor
    (decide ((sent.length : ℤ) = limit))
  rw [← hbody, recordBounds_width, List.length_map] at hle
  refine ⟨body, hrender, ?_, fun contentLength chunks hchunks hhonest =>
    readBody_iff (by decide) hchunks hhonest, ?_, fun hfive => ?_⟩
  · rw [hbody, pageWidth, List.map_map, List.length_map]
    exact Iff.rfl
  · rw [maxSyncResponseBytes]
    omega
  · rw [maxResponseBytes]
    omega

end Pages

section Witness

def linkedRows : List (ℕ × Json) := [(1, harmlessBody), (2, noticeBody), (3, restrictionBody)]

theorem linkedRows_valid : ∀ row ∈ linkedRows,
    @Records.validateRecord feedKeys row.2 true = .ok () ∧ row.2.WF := by
  simp only [linkedRows, List.forall_mem_cons]
  refine ⟨⟨harmlessBody_valid, ?_⟩, ⟨noticeBody_valid, ?_⟩, ⟨restrictionBody_valid, ?_⟩,
    fun _ h => absurd h List.not_mem_nil⟩ <;>
  · simp only [harmlessBody, noticeBody, restrictionBody, sampleRecord, Json.WF, Json.WFMembers,
      Json.WFList, and_true]
    decide

/-- The page after the first of three records. -/
theorem syncPage_fits_iff_sample :
    ∃ body, render (pageContent [noticeBody, restrictionBody] 3 true) = .ok body ∧
      (body.length : ℤ) ≤ maxSyncResponseBytes ∧ (body.length : ℤ) ≤ maxResponseBytes := by
  have hpage : syncPage linkedRows .records 1 2 =
      .ok (pageContent [noticeBody, restrictionBody] 3 true) := rfl
  obtain ⟨body, hrender, -, -, hle, hfew⟩ := @syncPage_fits_iff feedKeys linkedRows linkedRows_valid
    (by decide) 1 2 (by decide) _ hpage
  exact ⟨body, hrender, hle, hfew (by decide)⟩

def longStatement : PyStr := List.replicate Records.maxStatementChars 0x20000

/-- The signatures of the claims with this statement whose titles are the numbers from zero. -/
def longSignatures : List PyStr :=
  ["M/quaECSbPKftoJ46g8Rlah+cxMiRdHQqzhhXa3EcQxolOr8sgv9Et/s19wAfFLhr6yuhm3rKQyDZNu2hhB+Dg==",
   "j6TgvOvIn13YvK/JIbvfNwAjNPcSl76UF3S1ZdO8cijqGuhD7yv7K4Edx5+2D7HtruTmUm245XfGw1Gdd2hsAQ==",
   "PYg4jCpdJx7PKRIEsvsT+8eWxwfup0g+MogObjP+rf9ih2s8sQFfuO75zCyPrNYRvPOK5yrahdOKqVQ1vvNoBg==",
   "Vh0zvlaLtUhPg3kJ8MB62pSlB9Lk5ARdUz9FYnb5XY3mpUK/nPP1O4QqU+3KaCpHdoL+WH9mja1mXoeHgtkyBw==",
   "pruXAEzCdKZ6wqiUeuT50S5bbtWjJaevKMbY6wCKDz59R4y9Y2owzC8ItCSThBR6bMjlq0MRjymeP+QFZceuAA==",
   "UrWUS84eh2N5bguuuzTyuLrHwjJDS7uGy6FEzf80ZS1HtNqUrBmUqsQra9fFW5ShBb2Z4/6jkcLEvJwtQQXdBQ==",
   "nJ+dgpG98zHBTkno6jlk8yISOtkdEOC3D14/THtYfZkQ9YcsdDCfwh9Wh+hvtDR1Mp3E6wVdE01+ZEsZ1RbiAg==",
   "4V7hmIh2TKuCYOexny8Mv16wcZVW4Xfe4uY501NZRK0rVYkwe4nAB55bCIpnKLHUEo/Wi6fTT2b2oXLvBwHGAg==",
   "CLo58lVGjCs9owoxyMuOBhIqUNlpuViF4eEL6n1vxSFV7vAsSISaQF1U2SebmJYHa3nfmFhghmSkvQIPxuL0Cg==",
   "ZcqYEd2mD2L9vzzbF85ZiImfRNkNtB4uWJ1AymlQ9YnWwmIkL/gjWyTpVIwvdm8JuPd+DgtRMARDO5AC2UESCg==",
   "bLH12Ugz2zu7eqbMWm8QbL4ZQBXsib8jF6D4rT9a/31HZdOv5/20nzMq6h1Ung5QBWoOFUL/nXU/qR/FCJUKDQ==",
   "Gx4QGosIPa03DftmfEWXjCaqQ4MY3LT/gx3i3/LAG22d/FOqDJ0dNEW9aL9xzicPv7SPWYGjiqnScUJVdKKuBw==",
   "/8xZW9SksORG3ICig/1/1sBZFehewYdiTsBUJa5eDMcZuk3Z5hKWm6SJaUm3Pmuy9/+C2leEISGYkqJZbh+TBA==",
   "jzzjDSO5hSXAiryLVmcLSfDNpAvdy7rhWVOznJfsDLGPJzyr78eEdEuFgUSkwXHEtmrv1c1THDFoMvWXaMbmBA==",
   "XqILN+wTIgvRx2gLomrCVffe7TpiiqW40Gn3FFu8V18+lWtb/LK1tdB+EtTYsvnOzrmwaN5m+8CaZbJcCtoOCQ==",
   "lE3fNtMG0OfPVgeMIBzpfn79luegL3cH8Om7OE9OXVowA5lK5ol8T79fzmz79KKfZtvIO9ndwd4KVgRqUj5JBA==",
   "u1ZiAZh7432y21WwRFi8o/W+KndQXCCF4v0+RNxIWfHwY9aSQZqKeBToBrtUOaUKoq6fIghIcMqMbm5QtqPNCA==",
   "QtJh4ALBiYcOBQDnuu02h4vWf732DQyWEh41348JE8Ao+ff3nyrN+kDY+KCQQhg9yfVNFfJR6d+HUPnRwSW5BA==",
   "wmBPkseQd/nN38Al3WJr1eZQ/t5NkYVGvMA6VcPo8T2Mnx8IdD/UqgI2zhHR8MGOqLJHQPq/8kGK5ePCwfPNAw==",
   "3kS6SJmkrK600h4ROiDUzZItQ1lGxVBq21RSv1nSh7VbSRb4yorXm4qRVDrKYz3YfLep3kJcpxhsLBjwi2KpBA==",
   "s7fp3qDou1LQegk1K5QrG9Ft7qa8N6R9v0c2bnU8P73tnEBrJggd02+3eJc4FgC9axGIa5B213md2Xpw1elqCQ==",
   "abEfnVhqWjMBp3kJmAwHvnGcjZfViJHWwLkrYyaNUK/RGqNQ7tdc/eY3iYABbEWyfguYUy95ndkG6wOfHbxVAQ==",
   "78myfBQat0FHESjbRs6JKtikhHrkmAkkRUbfHNouAccBpjkh6CsEgosdXo1CIOSwbOMQOxypE8lGKL5n7RQXDQ==",
   "GohFkNT/dki2dcrkWg01j8lV7J2mBbd8EQaBUFqngwkzzRes6WNhsToh5Rk892wEcZGt2OZKPlufGXUP0amqCg==",
   "MN4CP3Yst1AkxNSHe+X56leRVudM1TlZ4Z2GAOD8uHaZZ/OUFdxVPBpd47+d/4NS8gpPHe5ZWazxPW0DYZVEDA=="]

def longClaims : List (PyStr × PyStr × PyStr) :=
  longSignatures.zipIdx.map fun (signature, i) => (decimal i, longStatement, signature)

def longRows : List (ℕ × Json) :=
  longSignatures.zipIdx.map fun (signature, i) =>
    (i + 1, Records.claim (decimal i) longStatement signature)

theorem longStatement_fits : Records.Fits Records.maxStatementChars longStatement where
  strip_ne_nil := by
    rw [longStatement, Records.strip_replicate (by decide), Ne, List.replicate_eq_nil_iff]
    decide
  length_le := by
    rw [longStatement, List.length_replicate]
  encodable := by
    intro c hc
    rw [List.eq_of_mem_replicate hc]
    decide

theorem longRows_valid : ∀ row ∈ longRows,
    @Records.validateRecord (Records.claimKeys longClaims) row.2 true = .ok () ∧ row.2.WF := by
  intro row hrow
  obtain ⟨⟨signature, i⟩, hmem, rfl⟩ := List.mem_map.mp hrow
  have hall : longSignatures.all fun s =>
      decide (s.length ≤ 256) && s.all (fun c => c.val < 0x80) && (b64decode s).isSome := by
    decide +kernel
  have htitles : ∀ i < 25, strip (decimal i) ≠ [] ∧ (decimal i).length ≤ Records.maxTitleChars := by
    decide
  have hi : i < 25 := (List.mem_zipIdx' hmem).1
  have hsignature := List.all_eq_true.mp hall signature (List.fst_mem_of_mem_zipIdx hmem)
  simp only [Bool.and_eq_true, decide_eq_true_eq] at hsignature
  obtain ⟨⟨hlen, hascii⟩, hdecode⟩ := hsignature
  refine ⟨Records.claim_valid (List.mem_map_of_mem (f := fun x => (decimal x.2, longStatement, x.1))
    hmem) ⟨(htitles i hi).1, (htitles i hi).2, Json.encodable_decimal i⟩ longStatement_fits
    ⟨hlen, encodable_of_all hascii, Option.isSome_iff_ne_none.mp hdecode⟩, Records.claim_wf⟩

theorem pageRows_longRows : pageRows longRows 0 25 = longRows := by
  have hpos : ∀ row ∈ longRows, decide ((0 : ℤ) < row.1) = true := by
    intro row hrow
    obtain ⟨⟨signature, i⟩, -, rfl⟩ := List.mem_map.mp hrow
    exact decide_eq_true (Int.natCast_pos.mpr (Nat.succ_pos i))
  rw [pageRows, List.filter_eq_self.mpr hpos]
  exact List.take_of_length_le (le_of_eq rfl)

theorem width_longRows : 25 * 400000 ≤ (longRows.map fun row => row.2.width).sum := by
  have hle : ∀ w ∈ longRows.map fun row => row.2.width, 400000 ≤ w := by
    intro w hw
    obtain ⟨row, hrow, rfl⟩ := List.mem_map.mp hw
    obtain ⟨⟨signature, i⟩, -, rfl⟩ := List.mem_map.mp hrow
    have hwidth : width longStatement = 100000 * 4 := width_replicate _ _
    have hle : width longStatement ≤
        (Records.claim (decimal i) longStatement signature).width := Records.width_of_statement
    rw [hwidth] at hle
    exact hle
  have hsum := List.card_nsmul_le_sum _ _ hle
  rwa [List.length_map, smul_eq_mul] at hsum

/-- Twenty-five different valid records fill a page that the client refuses. -/
theorem longRows_refused :
    (∀ row ∈ longRows,
      @Records.validateRecord (Records.claimKeys longClaims) row.2 true = .ok () ∧ row.2.WF) ∧
    longRows.length = 25 ∧ (longRows.map fun row => row.2.text "title").Nodup ∧
    ∃ page body, syncPage longRows .records 0 25 = .ok page ∧ render page = .ok body ∧
      maxResponseBytes < body.length ∧ ¬ ∃ b, readBody maxResponseBytes none [body] = .ok b := by
  have hitems : ∀ r ∈ longRows.map Prod.snd,
      @Records.validateRecord (Records.claimKeys longClaims) r true = .ok () ∧ r.WF := by
    intro r hr
    obtain ⟨row, hrow, rfl⟩ := List.mem_map.mp hr
    exact longRows_valid row hrow
  obtain ⟨body, hrender, hbody⟩ := @render_pageContent (Records.claimKeys longClaims)
    (longRows.map Prod.snd) hitems (pageCursor longRows 0) (decide ((longRows.length : ℤ) = 25))
  have hlong : maxResponseBytes < body.length := by
    have hwidth := width_longRows
    rw [hbody, pageWidth, List.map_map, maxResponseBytes]
    have hcomp : Json.width ∘ Prod.snd = fun row : ℕ × Json => row.2.width := rfl
    rw [hcomp]
    omega
  refine ⟨longRows_valid, rfl, ?_, _, body, ?_, hrender, hlong, ?_⟩
  · have htitles : (longRows.map fun row => row.2.text "title") =
        longSignatures.zipIdx.map fun x => decimal x.2 := by
      rw [longRows, List.map_map]
      rfl
    rw [htitles]
    decide +kernel
  · rw [syncPage, pageRows_longRows]
    rfl
  · have hhonest : Honest none body := fun _ h => nomatch h
    rw [readBody_iff (by decide) List.flatten_singleton hhonest]
    omega

end Witness

end HistoryAnchor
