import Smolmux.Expect
import Smolmux.Lookback
import Smolmux.RegexEngine

/-! What an expect request finds in the output that is fed to it. Its buffer is the end of
the stream since it was added, and a feed searches the new portion and the bytes just
before it. -/

namespace Smolmux.Expect
open Lookback RegexEngine List

variable {ρ : Type}

def follow (regex : Regex ρ) (req : ExpectRequest ρ) (chunks : List Bytes) : ExpectRequest ρ :=
  chunks.foldl (fun req data => feedRequest regex data req) req

def feedAll (regex : Regex ρ) (eng : ExpectEngine ρ) (chunks : List Bytes) : ExpectEngine ρ :=
  chunks.foldl (expectFeed regex) eng

theorem follow_append (regex : Regex ρ) (req : ExpectRequest ρ) (xs ys : List Bytes) :
    follow regex req (xs ++ ys) = follow regex (follow regex req xs) ys := foldl_append

theorem feedAll_requests (regex : Regex ρ) (eng : ExpectEngine ρ) (chunks : List Bytes) :
    (feedAll regex eng chunks).requests = eng.requests.map fun req => follow regex req chunks := by
  induction chunks generalizing eng with
  | nil => exact (map_id eng.requests).symm
  | cons data chunks ih =>
    have hrest := ih (expectFeed regex eng data)
    rw [expectFeed, map_map] at hrest
    exact hrest

/-- The portions a drain of the link feeds: at most one read buffer each. -/
def Portion (data : Bytes) : Prop := data ≠ [] ∧ data.length ≤ 4096 ∧ 0 ∉ data

/-- The request has read the stream `stream` and found nothing: it holds its end and has
searched all of it. -/
structure Reading (stream : Bytes) (req : ExpectRequest ρ) : Prop where
  buffer : req.buffer = stream.rtake maxExpectBufSize
  searched : req.searchOffset = req.buffer.length
  unmatched : req.matched = false

def scanned (stream data : Bytes) : Bytes :=
  (stream ++ data).rtake (expectScanLookback + data.length)

variable {stream : Bytes} {req : ExpectRequest ρ}

theorem feedRequest_buffer (regex : Regex ρ) (h : Reading stream req) (data : Bytes) :
    feedRequest regex data req =
      let buffer := (stream ++ data).rtake maxExpectBufSize
      let found := regex.exec req.compiled (buffer.rtake (expectScanLookback + data.length))
      { req with
        compiled := found.2
        buffer := buffer
        searchOffset := buffer.length
        matched := found.1.isSome } := by
  obtain ⟨size, hsize⟩ : ∃ size, maxExpectBufSize = size := ⟨_, rfl⟩
  have hbuffer := h.buffer
  rw [feedRequest, if_neg (h.unmatched.trans_ne Bool.false_ne_true), hsize]
  rw [hsize] at hbuffer
  by_cases hlong : size < data.length
  · -- the portion alone fills the buffer
    have hwhole : (stream ++ data).rtake size = data.drop (data.length - size) :=
      rtake_append_of_le (Nat.le_of_lt hlong)
    have hregion : (data.drop (data.length - size)).rtake (expectScanLookback + data.length) =
        data.drop (data.length - size) := by
      refine rtake_of_length_le ?_
      rw [length_drop]
      omega
    rw [if_pos hlong, hwhole]
    dsimp only
    rw [hregion, nil_append, Nat.zero_sub, drop_zero]
  · have hfits : data.length ≤ size := Nat.le_of_not_lt hlong
    have hwhole : data.drop (data.length - size) = data := by
      rw [Nat.sub_eq_zero_of_le hfits, drop_zero]
    obtain ⟨kept, hkept⟩ : ∃ kept, req.buffer.drop (req.buffer.length + data.length - size) =
        kept := ⟨_, rfl⟩
    have hslide : kept ++ data = (stream ++ data).rtake size := by
      rw [← hkept, hbuffer]
      exact Lookback.slide hfits
    have hoffset : req.searchOffset - (req.buffer.length + data.length - size) = kept.length := by
      rw [← hkept, length_drop, h.searched]
    have hregion : (kept ++ data).drop (kept.length - expectScanLookback) =
        (kept ++ data).rtake (expectScanLookback + data.length) := by
      have hcount : kept.length - expectScanLookback =
          (kept ++ data).length - (expectScanLookback + data.length) := by
        rw [length_append]
        omega
      rw [List.rtake, hcount]
    rw [if_neg hlong]
    dsimp only
    rw [hwhole, hkept, hoffset, hregion, hslide]

theorem feedRequest_reading {regex : Regex ρ} {data : Bytes} (h : Reading stream req)
    (hdata : data.length + expectScanLookback ≤ maxExpectBufSize) :
    feedRequest regex data req = { req with
      compiled := (regex.exec req.compiled (scanned stream data)).2
      buffer := (stream ++ data).rtake maxExpectBufSize
      searchOffset := ((stream ++ data).rtake maxExpectBufSize).length
      matched := (regex.exec req.compiled (scanned stream data)).1.isSome } := by
  have hregion : ((stream ++ data).rtake maxExpectBufSize).rtake
      (expectScanLookback + data.length) = scanned stream data := rtake_rtake (by omega)
  rw [feedRequest_buffer regex h data]
  dsimp only
  rw [hregion]

variable {chunks : List Bytes}

section Exact

variable {regex : Regex ρ} {lang : Set Bytes} {S : Set ρ}

theorem not_mem_flatten (h : ∀ c ∈ chunks, Portion c) :
    0 ∉ chunks.flatten := by
  intro hmem
  obtain ⟨c, hc, h0⟩ := mem_flatten.mp hmem
  exact (h c hc).2.2 h0

theorem Reading.feed {data : Bytes} (h : Reading stream req) (hsearch : regex.Searches lang S)
    (hc : req.compiled ∈ S) (hstream : 0 ∉ stream) (hdata : Portion data) :
    (feedRequest regex data req).compiled ∈ S ∧
      (feedRequest regex data req).buffer = (stream ++ data).rtake maxExpectBufSize ∧
      ((feedRequest regex data req).matched ↔ ∃ w ∈ lang, w <:+: scanned stream data) ∧
      ((feedRequest regex data req).matched = false →
        Reading (stream ++ data) (feedRequest regex data req)) := by
  have hsmall : data.length + expectScanLookback ≤ maxExpectBufSize := by
    have hread := hdata.2.1
    rw [expectScanLookback, maxExpectBufSize]
    omega
  have hclean : 0 ∉ scanned stream data := fun h0 => by
    rcases mem_append.mp (mem_of_mem_drop h0) with h0 | h0
    · exact hstream h0
    · exact hdata.2.2 h0
  rw [feedRequest_reading h hsmall]
  refine ⟨hsearch.stays _ hc _, by dsimp only, hsearch.found_iff _ hc _ hclean, fun hno => ?_⟩
  exact { buffer := by dsimp only, searched := by dsimp only, unmatched := hno }

theorem follow_matched (h : req.matched) (chunks : List Bytes) :
    follow regex req chunks = req := by
  induction chunks with
  | nil => rfl
  | cons data chunks ih =>
    have hstep : feedRequest regex data req = req := by rw [feedRequest, if_pos h]
    rw [follow, foldl_cons, hstep]
    exact ih

def MatchedAt (regex : Regex ρ) (req : ExpectRequest ρ) (chunks : List Bytes) (lang : Set Bytes) :
    Prop :=
  ∃ before data after, chunks = before ++ data :: after ∧
    (follow regex req before).matched = false ∧
    (follow regex req (before ++ [data])).matched = true ∧
    (∃ w ∈ lang, w <:+: scanned before.flatten data) ∧
    (follow regex req chunks).buffer = (before ++ [data]).flatten.rtake maxExpectBufSize

theorem reading_or_matched (hfresh : Reading [] req) (hsearch : regex.Searches lang S)
    (hc : req.compiled ∈ S) (hchunks : ∀ c ∈ chunks, Portion c) :
    (Reading chunks.flatten (follow regex req chunks) ∧ (follow regex req chunks).compiled ∈ S) ∨
      (follow regex req chunks).matched ∧ MatchedAt regex req chunks lang := by
  induction chunks using List.reverseRecOn with
  | nil => exact .inl ⟨hfresh, hc⟩
  | append_singleton chunks data ih =>
    have hbefore : ∀ c ∈ chunks, Portion c := fun c hcs =>
      hchunks c (mem_append_left _ hcs)
    have hdata : Portion data := hchunks data (mem_append_right _ (mem_singleton_self _))
    have hlast : follow regex req (chunks ++ [data]) =
        feedRequest regex data (follow regex req chunks) := follow_append ..
    have hflat : (chunks ++ [data]).flatten = chunks.flatten ++ data := by
      rw [flatten_append, flatten_singleton]
    rcases ih hbefore with ⟨hreading, hmem⟩ | ⟨hmatched, before, last, after, heq, hrest⟩
    · obtain ⟨hstay, hbuffer, hiff, hgoes⟩ :=
        hreading.feed hsearch hmem (not_mem_flatten hbefore) hdata
      rw [← hlast] at hstay hbuffer hiff hgoes
      cases hm : (follow regex req (chunks ++ [data])).matched with
      | false => exact .inl ⟨hflat ▸ hgoes hm, hstay⟩
      | true => exact .inr ⟨rfl, chunks, data, [], rfl, hreading.unmatched, hm, hiff.mp hm,
          hflat ▸ hbuffer⟩
    · have hsame : follow regex req (chunks ++ [data]) = follow regex req chunks := by
        rw [follow_append, follow_matched hmatched]
      rw [hsame]
      refine .inr ⟨hmatched, before, last, after ++ [data], ?_, hrest.1, hrest.2.1, hrest.2.2.1, ?_⟩
      · rw [heq, append_assoc]
        rfl
      · rw [hsame]
        exact hrest.2.2.2

theorem reading_newRequest (id pattern : Bytes) (compiled : ρ) (deadline : Rat) (clientId : Bytes)
    (ticket : Nat) (owner : Option Nat) :
    Reading [] (newRequest id pattern compiled deadline clientId ticket owner) := ⟨rfl, rfl, rfl⟩

/-- A request that is accepted finds in the output that follows, however it is split, every
word of its pattern that begins at most 256 bytes before the portion it ends in; it is
matched by nothing else, and its result is the end of the output up to the portion that
made it match. -/
theorem expect_finds_words (regex : Regex ρ) (lang : Set Bytes) (S : Set ρ)
    (hsearch : regex.Searches lang S) (growMem bufMem : Bool) (eng eng' : ExpectEngine ρ)
    (id pattern : Bytes) (timeoutS : Rat) (clientId : Bytes) (now : Rat) (owner : Option Nat)
    (hpattern : ∀ c, regex.compile pattern = some c → c ∈ S)
    (hadd : expectAdd regex growMem bufMem eng id pattern timeoutS clientId now owner =
      (eng', none)) :
    ∃ req, (∀ chunks, (feedAll regex eng' chunks).requests =
        (feedAll regex eng chunks).requests ++ [follow regex req chunks]) ∧
      ∀ chunks, (∀ c ∈ chunks, Portion c) →
        (∀ before data after start w rest, chunks = before ++ data :: after → w ∈ lang →
          before.flatten ++ data = start ++ w ++ rest → rest.length < data.length →
          before.flatten.length ≤ start.length + expectScanLookback →
          (follow regex req (before ++ [data])).matched = true) ∧
        ((follow regex req chunks).matched = true →
          (∃ w ∈ lang, w <:+: chunks.flatten) ∧
          ∃ before data after, chunks = before ++ data :: after ∧
            (follow regex req before).matched = false ∧
            (follow regex req (before ++ [data])).matched = true ∧
            (resultOf (follow regex req chunks)).data =
              (before ++ [data]).flatten.rtake maxExpectBufSize) := by
  have hadds := adds_expectAdd regex growMem bufMem eng id pattern timeoutS clientId now owner
  rw [hadd] at hadds
  cases hadds with
  | added compiled hcompiled hrequests hnext =>
  obtain ⟨req, hreq⟩ : ∃ req, newRequest id pattern compiled (now + timeoutS) clientId eng.next
      owner = req := ⟨_, rfl⟩
  have hfresh : Reading [] req := hreq ▸ reading_newRequest ..
  have hc : req.compiled ∈ S := hreq ▸ hpattern compiled hcompiled
  refine ⟨req, fun chunks => ?_, fun chunks hchunks => ⟨?_, fun hmatched => ?_⟩⟩
  · rw [feedAll_requests, feedAll_requests, hrequests, hreq, map_append]
    rfl
  · intro before data after start w rest heq hw hsplit hend hstart
    have hbefore : ∀ c ∈ before, Portion c := fun c hcs =>
      hchunks c (heq ▸ mem_append_left _ hcs)
    have hdata : Portion data := hchunks data (heq ▸ mem_append_right _ mem_cons_self)
    have hlast : follow regex req (before ++ [data]) =
        feedRequest regex data (follow regex req before) := follow_append ..
    rcases reading_or_matched hfresh hsearch hc hbefore with ⟨hreading, hmem⟩ | ⟨hmatched, -⟩
    · rw [hlast]
      obtain ⟨-, -, hiff, -⟩ := hreading.feed hsearch hmem (not_mem_flatten hbefore) hdata
      refine hiff.mpr ⟨w, hw, infix_rtake hsplit ?_⟩
      rw [length_append]
      omega
    · rw [follow_append, follow_matched hmatched]
      exact hmatched
  · rcases reading_or_matched hfresh hsearch hc hchunks with ⟨hreading, -⟩ | ⟨-, hat⟩
    · exact absurd (hreading.unmatched.symm.trans hmatched) Bool.false_ne_true
    · obtain ⟨before, data, after, heq, hno, hyes, ⟨w, hw, hin⟩, hbuffer⟩ := hat
      refine ⟨⟨w, hw, ?_⟩, before, data, after, heq, hno, hyes, hbuffer⟩
      have hread : (before.flatten ++ data) <:+: chunks.flatten := by
        rw [heq, flatten_append, flatten_cons, ← append_assoc]
        exact (prefix_append _ _).isInfix
      exact (infix_of_rtake hin).trans hread

theorem expect_finds_words_split :
    ∃ eng', expectAdd wordRegex true true expectInit (ascii "1") (ascii "ok") 5 (ascii "c") 0
        none = (eng', none) ∧
      ∃ req, (feedAll wordRegex eng' [ascii "o", ascii "k"]).requests = [req] ∧
        req.matched = true := by
  obtain ⟨eng', hadd⟩ : ∃ eng', expectAdd wordRegex true true expectInit (ascii "1") (ascii "ok")
      5 (ascii "c") 0 none = (eng', none) := ⟨_, rfl⟩
  obtain ⟨req, hengine, hfinds⟩ := expect_finds_words wordRegex {ascii "ok"} {ascii "ok"}
    (searches_wordRegex (ascii "ok")) true true expectInit eng' (ascii "1") (ascii "ok") 5
    (ascii "c") 0 none (fun c hc => (Option.some.inj hc).symm) hadd
  have hportions : ∀ c ∈ [ascii "o", ascii "k"], Portion c := by
    intro c hc
    rcases mem_pair.mp hc with rfl | rfl <;> exact ⟨by decide, by decide, by decide⟩
  refine ⟨eng', hadd, follow wordRegex req [ascii "o", ascii "k"], hengine _, ?_⟩
  exact (hfinds _ hportions).1 [ascii "o"] (ascii "k") [] [] (ascii "ok") [] rfl rfl rfl
    (by decide) (by decide)

end Exact

section Anchors

variable {regex : Regex ρ} {S : Set ρ}

/-- A portion that makes a request match is found in a part of the buffer that reaches its
end, and the buffer holds bytes of the portions only. -/
theorem feedRequest_found (regex : Regex ρ) (data : Bytes) (h : req.matched = false) :
    (∃ start, (feedRequest regex data req).matched = (regex.exec req.compiled
        ((feedRequest regex data req).buffer.drop start)).1.isSome ∧
      (feedRequest regex data req).compiled = (regex.exec req.compiled
        ((feedRequest regex data req).buffer.drop start)).2) ∧
      (feedRequest regex data req).buffer ⊆ req.buffer ++ data := by
  unfold feedRequest
  generalize maxExpectBufSize = size
  rw [if_neg (h.trans_ne Bool.false_ne_true)]
  refine ⟨⟨_, rfl, rfl⟩, ?_⟩
  intro c hc
  rcases mem_append.mp hc with hc | hc
  · split_ifs at hc
    · exact absurd hc not_mem_nil
    · exact mem_append_left _ (mem_of_mem_drop hc)
  · exact mem_append_right _ (mem_of_mem_drop hc)

theorem follow_keeps (hstays : ∀ c ∈ S, ∀ text, (regex.exec c text).2 ∈ S) (hc : req.compiled ∈ S)
    (hclean : 0 ∉ req.buffer) (hchunks : ∀ c ∈ chunks, 0 ∉ c) :
    (follow regex req chunks).compiled ∈ S ∧ 0 ∉ (follow regex req chunks).buffer := by
  induction chunks generalizing req with
  | nil => exact ⟨hc, hclean⟩
  | cons data chunks ih =>
    have hrest : ∀ c ∈ chunks, 0 ∉ c := fun c hcs => hchunks c (mem_cons_of_mem _ hcs)
    cases hm : req.matched with
    | true =>
      rw [follow_matched hm]
      exact ⟨hc, hclean⟩
    | false =>
      obtain ⟨⟨start, -, hcompiled⟩, hbuffer⟩ := feedRequest_found regex data hm
      refine ih ?_ (fun h0 => ?_) hrest
      · rw [hcompiled]
        exact hstays _ hc _
      · rcases mem_append.mp (hbuffer h0) with h0 | h0
        · exact hclean h0
        · exact hchunks data mem_cons_self h0

/-- A feed that makes a request match would have done so with a search of the whole buffer,
for a pattern without anchors that ask what stands before and output without NUL bytes. -/
theorem scan_invents_no_match (accepts : Bytes → Bool) (slow : Ere → Bytes → Bool)
    (growMem bufMem : Bool) (eng eng' : ExpectEngine Compiled) (id pattern : Bytes) (timeoutS : Rat)
    (clientId : Bytes) (now : Rat) (owner : Option Nat)
    (hpattern : (Ere.parse pattern).all Ere.looksAhead = true)
    (hadd : expectAdd (posixRegex accepts slow) growMem bufMem eng id pattern timeoutS clientId now
      owner = (eng', none)) :
    let regex := posixRegex accepts slow
    ∃ req, (∀ chunks, (feedAll regex eng' chunks).requests =
        (feedAll regex eng chunks).requests ++ [follow regex req chunks]) ∧
      ∀ chunks data, (∀ c ∈ chunks ++ [data], 0 ∉ c) →
        (follow regex req chunks).matched = false →
        (follow regex req (chunks ++ [data])).matched = true →
        (regex.exec (follow regex req chunks).compiled
          (follow regex req (chunks ++ [data])).buffer).1.isSome = true := by
  intro regex
  have hadds := adds_expectAdd regex growMem bufMem eng id pattern timeoutS clientId now owner
  rw [hadd] at hadds
  cases hadds with
  | added compiled hcompiled hrequests hnext =>
  obtain ⟨req, hreq⟩ : ∃ req, newRequest id pattern compiled (now + timeoutS) clientId eng.next
      owner = req := ⟨_, rfl⟩
  let S : Set Compiled := {re | re.expr.looksAhead}
  have hc : req.compiled ∈ S := by
    rw [regexCompile_expr hcompiled] at hpattern
    exact hreq ▸ hpattern
  have hstays : ∀ re ∈ S, ∀ text, (regex.exec re text).2 ∈ S := fun re hre text =>
    (congrArg Ere.looksAhead ((findsShown_posixRegex accepts slow).keeps re text)).trans hre
  have hempty : 0 ∉ req.buffer := hreq ▸ not_mem_nil
  refine ⟨req, fun chunks => ?_, fun chunks data hclean hno hyes => ?_⟩
  · rw [feedAll_requests, feedAll_requests, hrequests, hreq, map_append]
    rfl
  · have hlast : follow regex req (chunks ++ [data]) =
        feedRequest regex data (follow regex req chunks) := follow_append ..
    have hmem : (follow regex req chunks).compiled ∈ S :=
      (follow_keeps hstays hc hempty fun c hcs => hclean c (mem_append_left _ hcs)).1
    have hbuffer := (follow_keeps hstays hc hempty hclean).2
    rw [hlast] at hyes hbuffer ⊢
    obtain ⟨⟨start, hfound, -⟩, -⟩ := feedRequest_found regex data hno
    rw [hyes] at hfound
    have hkept : 0 ∉ (feedRequest regex data (follow regex req chunks)).buffer.take start :=
      fun h0 => hbuffer (mem_of_mem_take h0)
    have hwhole := posixRegex_found_append hmem hkept hfound.symm
    rwa [take_append_drop] at hwhole

theorem scan_invents_no_match_word :
    let added := expectAdd plainRegex true true expectInit (ascii "1") (ascii "ok$") 5 (ascii "c") 0
      none
    let chunks := [List.replicate 300 97, ascii "ok"]
    added.2 = none ∧
      ∃ req, (feedAll plainRegex added.1 chunks).requests = [req] ∧ req.matched = true ∧
        ∃ c, (plainRegex.exec c req.buffer).1.isSome = true := by
  intro added chunks
  have hnone : added.2 = none := by decide +kernel
  obtain ⟨req, hengine, hfinds⟩ := scan_invents_no_match _ _ true true expectInit added.1 (ascii "1")
    (ascii "ok$") 5 (ascii "c") 0 none (by decide +kernel) (Prod.ext rfl hnone)
  have hengine : ∀ chunks, (feedAll plainRegex added.1 chunks).requests =
      [follow plainRegex req chunks] := fun chunks => (hengine chunks).trans (by
    rw [feedAll_requests]
    rfl)
  have hbefore : (feedAll plainRegex added.1 [List.replicate 300 97]).requests.map (·.matched) =
      [false] := by decide +kernel
  have hafter : (feedAll plainRegex added.1 chunks).requests.map (·.matched) = [true] := by
    decide +kernel
  rw [hengine, map_singleton, singleton_inj] at hbefore hafter
  exact ⟨hnone, _, hengine _, hafter, _,
    hfinds [List.replicate 300 97] (ascii "ok") (by decide +kernel) hbefore hafter⟩

/-- The pattern `^b` and 300 bytes with the letter in the middle: one more byte, and the scan
begins at the letter and takes its place for the start. -/
theorem anchor_found_in_the_middle :
    let added := expectAdd plainRegex true true expectInit (ascii "1") (ascii "^b") 5 (ascii "c") 0
      none
    let first := List.replicate 44 97 ++ [98] ++ List.replicate 255 97
    let after := (feedAll plainRegex added.1 [first, ascii "x"]).requests
    added.2 = none ∧
      (feedAll plainRegex added.1 [first]).requests.map (·.matched) = [false] ∧
      after.map (·.matched) = [true] ∧
      after.map (fun req => (plainRegex.exec req.compiled req.buffer).1) = [none] := by
  decide +kernel

end Anchors

end Smolmux.Expect
