import Smolmux.Broker.ExpectFlags
import Smolmux.Broker.FloodLedger
import Smolmux.Lookback

/-! What the stop pattern of a flood is searched for in. The window is not cleared when a
flood begins, and the engine reads behind the bytes in use: in memory that no flood has
used yet it reads the newest bytes of this flood and nothing else, so that the search
depends on nothing that was before the flood. -/

namespace Smolmux.Broker
open Protocol Smolmux.Frame List

variable {ρ : Type}

def padded (recent : Bytes) : Bytes :=
  recent ++ List.replicate (floodTailLen - recent.length) 0

theorem length_padded {recent : Bytes} (h : recent.length ≤ floodTailLen) :
    (padded recent).length = floodTailLen := by
  rw [padded, length_append, length_replicate]
  omega

theorem length_overwrite {mem : Bytes} {off : Nat} {data : Bytes}
    (h : off + data.length ≤ mem.length) : (overwrite mem off data).length = mem.length := by
  rw [overwrite, length_append, length_append, length_take, length_drop]
  omega

theorem overwrite_end {mem : Bytes} {off : Nat} {data : Bytes}
    (h : off + data.length = mem.length) : overwrite mem off data = mem.take off ++ data := by
  rw [overwrite, h, drop_length, append_nil]

theorem take_moved {recent : Bytes} {keep : Nat} (hkeep : keep ≤ recent.length) :
    (overwrite (padded recent) 0
      (((padded recent).drop (recent.length - keep)).take keep)).take keep = recent.rtake keep := by
  have hmoved : ((padded recent).drop (recent.length - keep)).take keep = recent.rtake keep := by
    rw [padded, drop_append_of_le_length (Nat.sub_le ..), take_append_of_le_length,
      take_of_length_le, List.rtake]
    · rw [length_drop]
      omega
    · rw [length_drop]
      omega
  have hlength : (recent.rtake keep).length = keep := by
    rw [Lookback.length_rtake]
    omega
  rw [hmoved, overwrite, take_zero, nil_append, take_left' hlength]

theorem tailStore_padded {recent : Bytes} (h : recent.length ≤ floodTailLen) (buf : Bytes) :
    tailStore (padded recent) recent.length buf =
      (padded ((recent ++ buf).rtake floodTailLen),
        ((recent ++ buf).rtake floodTailLen).length) := by
  have hfull : ∀ {r : Bytes}, r.length = floodTailLen → padded r = r := by
    intro r hr
    rw [padded, hr, Nat.sub_self, replicate_zero, append_nil]
  unfold tailStore
  by_cases hlong : floodTailLen ≤ buf.length
  · have hlength : (buf.rtake floodTailLen).length = floodTailLen := by
      rw [Lookback.length_rtake]
      omega
    rw [if_pos hlong, Lookback.rtake_append_of_le hlong, hfull hlength, hlength, List.rtake]
  · rw [if_neg hlong]
    dsimp only
    by_cases hover : floodTailLen < recent.length + buf.length
    · have hkeep : floodTailLen - buf.length ≤ recent.length := by omega
      have hnew : (recent ++ buf).rtake floodTailLen =
          recent.rtake (floodTailLen - buf.length) ++ buf :=
        Lookback.rtake_append (Nat.le_of_not_le hlong)
      have hlength : ((recent ++ buf).rtake floodTailLen).length = floodTailLen := by
        rw [Lookback.length_rtake, length_append]
        omega
      rw [if_pos hover, if_pos (by omega), overwrite_end, take_moved hkeep, ← hnew, hfull hlength,
        hlength, Nat.sub_add_cancel (Nat.le_of_not_le hlong)]
      · rw [length_overwrite, length_padded h]
        · omega
        · rw [length_padded h, length_take, length_drop, length_padded h]
          omega
    · have hall : (recent ++ buf).rtake floodTailLen = recent ++ buf :=
        Lookback.rtake_of_length_le (by rw [length_append]; omega)
      have hbehind : overwrite (padded recent) recent.length buf = padded (recent ++ buf) := by
        rw [overwrite, padded, padded, take_left, ← drop_drop, drop_left,
          drop_replicate, length_append, Nat.sub_sub]
      rw [if_neg hover, if_neg (not_not.mpr rfl), hall, length_append, hbehind]

theorem tailText_padded {recent : Bytes} (h : recent.length ≤ floodTailLen) :
    tailText (padded recent) recent.length = cString recent := by
  have hnul : ∃ rest, List.replicate (floodTailLen - recent.length) 0 ++ sizeBytes recent.length =
      0 :: rest := by
    by_cases hfull : recent.length = floodTailLen
    · rw [hfull, Nat.sub_self]
      exact ⟨(sizeBytes floodTailLen).tail, by decide⟩
    · obtain ⟨k, hk⟩ : ∃ k, floodTailLen - recent.length = k + 1 :=
        ⟨floodTailLen - recent.length - 1, by omega⟩
      rw [hk, replicate_succ]
      exact ⟨_, rfl⟩
  obtain ⟨rest, hrest⟩ := hnul
  rw [tailText, padded, append_assoc, hrest, cString_append_nul]

def Seek.after (regex : Regex ρ) (s : Seek ρ) (chunks : List Bytes) : Seek ρ :=
  chunks.foldl (Seek.feed regex) s

theorem Seek.after_concat (regex : Regex ρ) (s : Seek ρ) (chunks : List Bytes) (buf : Bytes) :
    s.after regex (chunks ++ [buf]) = (s.after regex chunks).feed regex buf := by
  rw [after, after, foldl_append]
  rfl

theorem Seek.after_none (regex : Regex ρ) {s : Seek ρ} (h : s.re = none) (chunks : List Bytes) :
    s.after regex chunks = s := by
  induction chunks with
  | nil => rfl
  | cons buf chunks ih =>
    have hfeed : s.feed regex buf = s := by rw [feed, h]
    change (s.feed regex buf).after regex chunks = s
    rw [hfeed]
    exact ih

def Steady (regex : Regex ρ) : Prop := ∀ re text, (regex.exec re text).2 = re

theorem Seek.after_padded {regex : Regex ρ} (hsteady : Steady regex) (re : ρ)
    (chunks : List Bytes) :
    (Seek.mk (padded []) 0 (some re)).after regex chunks =
      ⟨padded (chunks.flatten.rtake floodTailLen), (chunks.flatten.rtake floodTailLen).length,
        some re⟩ := by
  induction chunks using List.reverseRecOn with
  | nil => rfl
  | append_singleton chunks buf ih =>
    have hfits : (chunks.flatten.rtake floodTailLen).length ≤ floodTailLen := by
      rw [Lookback.length_rtake]
      omega
    have hnew : (chunks.flatten.rtake floodTailLen ++ buf).rtake floodTailLen =
        (chunks ++ [buf]).flatten.rtake floodTailLen := by
      rw [flatten_append, flatten_singleton, Lookback.rtake_rtake_append]
    rw [after_concat, ih, feed]
    dsimp only
    rw [tailStore_padded hfits, hsteady, hnew]

theorem Seek.finds_padded {regex : Regex ρ} (hsteady : Steady regex) (re : ρ)
    (chunks : List Bytes) (buf : Bytes) :
    ((Seek.mk (padded []) 0 (some re)).after regex chunks).finds regex buf =
      (regex.exec re (cString ((chunks ++ [buf]).flatten.rtake floodTailLen))).1.isSome := by
  have hfits : ∀ text : Bytes, (text.rtake floodTailLen).length ≤ floodTailLen := by
    intro text
    rw [Lookback.length_rtake]
    omega
  have hnew : (chunks.flatten.rtake floodTailLen ++ buf).rtake floodTailLen =
      (chunks ++ [buf]).flatten.rtake floodTailLen := by
    rw [flatten_append, flatten_singleton, Lookback.rtake_rtake_append]
  rw [after_padded hsteady, finds, Option.any_some]
  dsimp only
  rw [tailStore_padded (hfits _), hnew, tailText_padded (hfits _)]

/-- What the trace tells of the flood that was accepted last, and of the request that came
last. -/
structure Watch where
  asked : Option Bytes
  stop : Option Bytes
  /-- No device output had come to an earlier flood with a stop pattern. -/
  fresh : Bool
  going : Bool
  heard : List Bytes
  isMatched : Bool

namespace Watch

def start : Watch := ⟨none, none, true, false, [], false⟩

def see (w : Watch) : FloodNote → Watch
  | .requested _ stop => { w with asked := stop }
  | .accepted _ =>
    { w with
      stop := w.asked
      fresh := w.fresh && (w.heard == [] || (w.stop.filter (· ≠ [])).isNone)
      going := true
      heard := []
      isMatched := false }
  | .fed buf => if w.going ∧ buf ≠ [] then { w with heard := w.heard ++ [buf] } else w
  | .result _ isMatched => { w with going := false, isMatched := isMatched }
  | .asserted .. | .released .. | .rejected _ => w

def seeEvent (w : Watch) : Event → Watch
  | .flood note => w.see note
  | _ => w

def stoppedAt (w : Watch) (n : Nat) : Bool := w.isMatched && n + 1 == w.heard.length

end Watch

def watch (b : Broker ρ) : Watch := b.trace.foldl Watch.seeEvent Watch.start

def compileStop (regex : Regex ρ) (stop : Option Bytes) : Option (Option ρ) :=
  match stop.filter (· ≠ []) with
  | none => some none
  | some pattern => (regex.compile pattern).map some

section Following

/-- The flood is where a matcher is that began with this memory and pattern when the flood
was accepted and has been fed its chunks since. -/
structure Follows (regex : Regex ρ) (w : Watch) (fl : Flood ρ) (base : Bytes) (re : Option ρ) :
    Prop where
  clean : w.fresh = true → base = padded []
  stop : compileStop regex w.stop = some re
  active : fl.active = w.going
  tail : fl.tail = ((Seek.mk base 0 re).after regex w.heard).tail
  seek : w.going = true → fl.seek = (Seek.mk base 0 re).after regex w.heard
  found : ∀ n buf, w.heard[n]? = some buf →
    ((Seek.mk base 0 re).after regex (w.heard.take n)).finds regex buf = w.stoppedAt n
  unmatched : w.going = true → w.isMatched = false

variable {regex : Regex ρ} {w : Watch} {fl fl' : Flood ρ} {base : Bytes} {re : Option ρ}

namespace Follows

theorem still (h : Follows regex w fl base re) (hactive : fl'.active = fl.active)
    (htail : fl'.tail = fl.tail) (hseek : fl.active → fl'.seek = fl.seek) :
    Follows regex w fl' base re where
  clean := h.clean
  stop := h.stop
  active := hactive.trans h.active
  tail := htail.trans h.tail
  seek hgoing := (hseek (h.active.trans hgoing)).trans (h.seek hgoing)
  found := h.found
  unmatched := h.unmatched

theorem asked (h : Follows regex w fl base re) (stop : Option Bytes) :
    Follows regex { w with asked := stop } fl base re :=
  ⟨h.clean, h.stop, h.active, h.tail, h.seek, h.found, h.unmatched⟩

theorem not_found (h : Follows regex w fl base re) (hgoing : w.going) (n : Nat) (buf : Bytes)
    (hbuf : w.heard[n]? = some buf) :
    ((Seek.mk base 0 re).after regex (w.heard.take n)).finds regex buf = false := by
  rw [h.found n buf hbuf, Watch.stoppedAt, h.unmatched hgoing, Bool.false_and]

theorem finish (h : Follows regex w fl base re) (hgoing : w.going)
    (hactive : fl'.active = false) (htail : fl'.tail = fl.tail) (ticket : Nat) :
    Follows regex (w.see (.result ticket false)) fl' base re where
  clean := h.clean
  stop := h.stop
  active := hactive
  tail := htail.trans h.tail
  seek hnot := nomatch hnot
  found n buf hbuf := h.not_found hgoing n buf hbuf
  unmatched _ := rfl

theorem found_concat {s : Seek ρ} {heard : List Bytes} {buf : Bytes} {last : Bool}
    (hbefore : ∀ n buf, heard[n]? = some buf →
      (s.after regex (heard.take n)).finds regex buf = false)
    (hlast : (s.after regex heard).finds regex buf = last) (n : Nat) (buf' : Bytes)
    (hbuf' : (heard ++ [buf])[n]? = some buf') :
    (s.after regex ((heard ++ [buf]).take n)).finds regex buf' =
      (last && n + 1 == (heard ++ [buf]).length) := by
  rw [length_append, length_singleton]
  by_cases hn : n < heard.length
  · rw [getElem?_append_left hn] at hbuf'
    rw [take_append_of_le_length hn.le, hbefore n buf' hbuf', beq_false_of_ne (by omega),
      Bool.and_false]
  · obtain ⟨hlt, -⟩ := List.getElem?_eq_some_iff.mp hbuf'
    have hn : n = heard.length := by
      rw [length_append, length_singleton] at hlt
      omega
    subst hn
    rw [getElem?_concat_length, Option.some.injEq] at hbuf'
    rw [← hbuf', take_left, hlast, beq_self_eq_true, Bool.and_true]

theorem see_fed (hgoing : w.going) {buf : Bytes} (hbuf : buf ≠ []) :
    w.see (.fed buf) = { w with heard := w.heard ++ [buf] } := if_pos ⟨hgoing, hbuf⟩

theorem feed (h : Follows regex w fl base re) (hgoing : w.going) {buf : Bytes}
    (hbuf : buf ≠ []) (hfinds : fl.seek.finds regex buf = false) (hactive : fl'.active)
    (hseek : fl'.seek = fl.seek.feed regex buf) : Follows regex (w.see (.fed buf)) fl' base re := by
  rw [see_fed hgoing hbuf]
  have hafter : fl'.seek = (Seek.mk base 0 re).after regex (w.heard ++ [buf]) := by
    rw [Seek.after_concat, ← h.seek hgoing, hseek]
  refine ⟨h.clean, h.stop, hactive.trans hgoing.symm, congrArg Seek.tail hafter, fun _ => hafter,
    fun n buf' hbuf' => ?_, fun _ => h.unmatched hgoing⟩
  rw [h.seek hgoing] at hfinds
  rw [found_concat (h.not_found hgoing) hfinds n buf' hbuf', Watch.stoppedAt, h.unmatched hgoing]

theorem hit (h : Follows regex w fl base re) (hgoing : w.going) {buf : Bytes}
    (hbuf : buf ≠ []) (hfinds : fl.seek.finds regex buf) (hactive : fl'.active = false)
    (htail : fl'.tail = (fl.seek.feed regex buf).tail) (ticket : Nat) :
    Follows regex ((w.see (.fed buf)).see (.result ticket true)) fl' base re := by
  rw [see_fed hgoing hbuf]
  refine ⟨h.clean, h.stop, hactive, ?_, nofun, fun n buf' hbuf' => ?_, nofun⟩
  · rw [htail, h.seek hgoing, ← Seek.after_concat]
    rfl
  · rw [h.seek hgoing] at hfinds
    exact found_concat (h.not_found hgoing) hfinds n buf' hbuf'

theorem accept (h : Follows regex w fl base re) {re' : Option ρ}
    (hcompile : compileStop regex w.asked = some re') (hactive : fl'.active)
    (hseek : fl'.seek = ⟨fl.tail, 0, re'⟩) (ticket : Nat) :
    Follows regex (w.see (.accepted ticket)) fl' fl.tail re' := by
  refine ⟨fun hfresh => ?_, hcompile, hactive, congrArg Seek.tail hseek, fun _ => hseek, nofun,
    fun _ => rfl⟩
  have hboth : w.fresh ∧ (w.heard = [] ∨ w.stop.filter (· ≠ []) = none) := by
    simpa only [Watch.see, Bool.and_eq_true, Bool.or_eq_true, beq_iff_eq, Option.isNone_iff_eq_none]
      using hfresh
  obtain ⟨hfresh, hunused⟩ := hboth
  rw [h.tail, h.clean hfresh]
  rcases hunused with hheard | hstop
  · rw [hheard]
    rfl
  · have hre : re = none := by
      have hcompiled := h.stop
      rw [compileStop, hstop] at hcompiled
      exact (Option.some.inj hcompiled).symm
    rw [Seek.after_none regex (s := ⟨padded [], 0, re⟩) hre]

end Follows

end Following

section Tracking

variable {regex : Regex ρ} {evs : List Event}

theorem watch_eq (b : Broker ρ) :
    b.watch = (b.about (only .flood)).foldl Watch.seeEvent .start := by
  rw [Broker.about, foldl_filter, Broker.watch]
  congr 1
  funext w ev
  cases ev <;> first | rfl | exact (ite_self _).symm

theorem see_releases (w : Watch) (fl : Flood ρ) (rc : Int) :
    (fl.releases rc).foldl Watch.seeEvent w = w := by
  rw [Flood.releases]
  split_ifs <;> rfl

theorem Follows.refuse {w : Watch} {fl fl' : Flood ρ} {base : Bytes} {re : Option ρ}
    (h : Follows regex w fl base re) (hidle : fl.active = false) (hactive : fl'.active = false)
    (htail : fl'.tail = fl.tail) : Follows regex w fl' base re :=
  h.still (hactive.trans hidle.symm) htail fun hnot => absurd (hidle.symm.trans hnot) Bool.false_ne_true

theorem Follows.request {w : Watch} {fl fl' : Flood ρ} {base : Bytes} {re : Option ρ}
    {r : FloodRequest} {ticket : Nat} {rc : Int} (h : Follows regex w fl base re)
    (hasked : w.asked = r.stopPattern) (hreq : Flood.Requested regex r ticket fl rc evs fl') :
    ∃ base re, Follows regex ((evs ++ [Event.flood (if rc = 0 then .accepted ticket
      else .rejected ticket)]).foldl Watch.seeEvent w) fl' base re := by
  cases hreq with
  | refused timer => exact ⟨base, re, h.still rfl rfl fun _ => rfl⟩
  | failed hidle hactive hkept => exact ⟨base, re, h.refuse hidle hactive hkept.1⟩
  | failedHeld pin value rc hidle hactive hkept =>
    exact ⟨base, re, h.refuse hidle hactive hkept.1⟩
  | begun hidle hcompile hactive hseek hkey hid hevs =>
    have hquiet : evs.foldl Watch.seeEvent w = w := by
      rw [hevs]
      split_ifs <;> rfl
    rw [foldl_append, hquiet]
    exact ⟨fl.tail, _, h.accept (hasked ▸ hcompile) hactive hseek ticket⟩

theorem Follows.step {w : Watch} {fl fl' : Flood ρ} {base : Bytes} {re : Option ρ}
    (h : Follows regex w fl base re) (hstep : Flood.Step regex fl evs fl') :
    ∃ base re, Follows regex (evs.foldl Watch.seeEvent w) fl' base re := by
  have hgoing : fl.active = true → w.going := h.active.symm.trans
  cases hstep with
  | count => exact ⟨base, re, h.still rfl rfl fun _ => rfl⟩
  | release rc hactive =>
    rw [see_releases]
    exact ⟨base, re, h.still rfl rfl fun _ => rfl⟩
  | finish rc hactive =>
    rw [foldl_append, see_releases]
    have hended : fl.ended.active = false := rfl
    exact ⟨base, re, h.finish (hgoing hactive) hended rfl fl.current⟩
  | @skip buf hidle =>
    have hsame : w.see (.fed buf) = w := by
      refine if_neg fun hboth => ?_
      rw [h.active] at hidle
      rcases hidle with hidle | hidle
      · exact Bool.false_ne_true (hidle.symm.trans hboth.1)
      · exact hboth.2 hidle
    change ∃ base re, Follows regex (w.see (.fed buf)) fl base re
    exact ⟨base, re, hsame.symm ▸ h⟩
  | feed hactive hbuf hfinds => exact ⟨base, re, h.feed (hgoing hactive) hbuf hfinds hactive rfl⟩
  | hit rc hactive hbuf hfinds =>
    rw [foldl_cons, foldl_append, see_releases]
    exact ⟨base, re, h.hit (hgoing hactive) hbuf hfinds rfl rfl fl.current⟩
  | request r hreq =>
    have hready : Follows regex _ { fl with next := fl.next + 1 } base re :=
      (h.asked r.stopPattern).still rfl rfl fun _ => rfl
    exact hready.request rfl hreq

def Tracked (regex : Regex ρ) (b : Broker ρ) : Prop :=
  ∃ base re, Follows regex b.watch b.flood base re

def tracking (regex : Regex ρ) : Frame (Broker ρ) := ofInvariant (Tracked regex)

theorem tracking_of_same (b b' : Broker ρ)
    (htold : b'.about (only .flood) = b.about (only .flood)) (hflood : b'.flood = b.flood) :
    (tracking regex).rel b b' := by
  intro h
  rw [Tracked, watch_eq, htold, hflood, ← watch_eq]
  exact h

theorem turnFrame_tracking (e : Env ρ) : TurnFrame e (tracking e.regex) := by
  refine turnFrame_of_steps (fun b b' evs htold hstep => ?_) tracking_of_same
  rintro ⟨base, re, h⟩
  rw [Tracked, watch_eq, htold, foldl_append, ← watch_eq]
  exact h.step hstep

theorem tracked_runSteps (e : Env ρ) (cfg : Config) {steps : List Step}
    (hrunning : ∀ s ∈ steps, s ≠ .shutdown) :
    Tracked e.regex (runSteps e (brokerInit e.regex cfg) steps) := by
  have hstep : ∀ s ∈ steps, (tracking e.regex).KeepsAt e (step s : M ρ Unit) := by
    intro s hs
    by_cases hreplug : s = .replug
    · subst hreplug
      exact ⟨fun b => tracking_of_same _ _ rfl rfl⟩
    · exact (turnFrame_tracking e).step (hrunning s hs) hreplug
  refine (keepsAt_each steps hstep).rel (brokerInit e.regex cfg) ⟨padded [], none, ?_⟩
  exact ⟨fun _ => rfl, rfl, rfl, rfl, nofun, nofun, nofun⟩

end Tracking

theorem Follows.found_fresh {regex : Regex ρ} {w : Watch} {fl : Flood ρ} {base : Bytes}
    {re : Option ρ} (h : Follows regex w fl base re) (hfresh : w.fresh) {n : Nat}
    (hn : n < w.heard.length) :
    ((Seek.mk (padded []) 0 re).after regex (w.heard.take n)).finds regex w.heard[n] =
      w.stoppedAt n := by
  rw [← h.clean hfresh]
  exact h.found n _ (getElem?_eq_getElem hn)

theorem Follows.agree {regex : Regex ρ} {w₁ w₂ : Watch} {fl₁ fl₂ : Flood ρ} {base₁ base₂ : Bytes}
    {re₁ re₂ : Option ρ} (h₁ : Follows regex w₁ fl₁ base₁ re₁) (h₂ : Follows regex w₂ fl₂ base₂ re₂)
    (hfresh₁ : w₁.fresh) (hfresh₂ : w₂.fresh) (hstop : w₁.stop = w₂.stop) {n : Nat}
    (hn₁ : n < w₁.heard.length) (hn₂ : n < w₂.heard.length)
    (hheard : w₁.heard.take (n + 1) = w₂.heard.take (n + 1)) :
    w₁.stoppedAt n = w₂.stoppedAt n := by
  have hre : re₁ = re₂ := Option.some.inj (h₁.stop.symm.trans (hstop ▸ h₂.stop))
  have htake : w₁.heard.take n = w₂.heard.take n := by
    have hshorter := congrArg (List.take n) hheard
    rwa [take_take, take_take, Nat.min_eq_left (Nat.le_succ n)] at hshorter
  have hchunk : w₁.heard[n] = w₂.heard[n] := by
    have hsame : (w₁.heard.take (n + 1))[n]? = (w₂.heard.take (n + 1))[n]? := by rw [hheard]
    rw [getElem?_take_of_lt (Nat.lt_succ_self n),
      getElem?_take_of_lt (Nat.lt_succ_self n), getElem?_eq_getElem hn₁,
      getElem?_eq_getElem hn₂] at hsame
    exact Option.some.inj hsame
  rw [← h₁.found_fresh hfresh₁ hn₁, ← h₂.found_fresh hfresh₂ hn₂, htake, hchunk, hre]

theorem Follows.recent {regex : Regex ρ} {w : Watch} {fl : Flood ρ} {base : Bytes} {re : Option ρ}
    (h : Follows regex w fl base re) (hsteady : Steady regex) (hfresh : w.fresh) {n : Nat}
    (hn : n < w.heard.length) :
    w.stoppedAt n = re.any fun re => (regex.exec re
      (cString ((w.heard.take (n + 1)).flatten.rtake floodTailLen))).1.isSome := by
  rw [← h.found_fresh hfresh hn]
  cases re with
  | none => rw [Seek.after_none regex rfl, Seek.finds, Option.any_none, Option.any_none]
  | some re => rw [Seek.finds_padded hsteady, take_concat_get', Option.any_some]

/-- For floods that find the window as it was at the start: two floods with the same stop
pattern that have heard the same chunks stop on a match at the same one, whatever else the
runs are. With an engine that gives up no pattern the match depends on the last 256 bytes
alone. -/
theorem flood_stop_noninterference (e₁ e₂ : Env ρ) (hregex : e₂.regex = e₁.regex)
    (cfg₁ cfg₂ : Config) (steps₁ steps₂ : List Step) (hrunning₁ : ∀ s ∈ steps₁, s ≠ .shutdown)
    (hrunning₂ : ∀ s ∈ steps₂, s ≠ .shutdown) :
    let w₁ := (runSteps e₁ (brokerInit e₁.regex cfg₁) steps₁).watch
    let w₂ := (runSteps e₂ (brokerInit e₂.regex cfg₂) steps₂).watch
    w₁.fresh = true → w₂.fresh = true → w₁.stop = w₂.stop →
      (∀ n, n < w₁.heard.length → n < w₂.heard.length →
        w₁.heard.take (n + 1) = w₂.heard.take (n + 1) → w₁.stoppedAt n = w₂.stoppedAt n) ∧
      (Steady e₁.regex → ∀ n₁ n₂, n₁ < w₁.heard.length → n₂ < w₂.heard.length →
        (w₁.heard.take (n₁ + 1)).flatten.rtake floodTailLen =
          (w₂.heard.take (n₂ + 1)).flatten.rtake floodTailLen →
        w₁.stoppedAt n₁ = w₂.stoppedAt n₂) := by
  intro w₁ w₂ hfresh₁ hfresh₂ hstop
  obtain ⟨fl₁, base₁, re₁, h₁⟩ : ∃ fl base re, Follows e₁.regex w₁ fl base re :=
    ⟨_, tracked_runSteps e₁ cfg₁ hrunning₁⟩
  obtain ⟨fl₂, base₂, re₂, h₂⟩ : ∃ fl base re, Follows e₂.regex w₂ fl base re :=
    ⟨_, tracked_runSteps e₂ cfg₂ hrunning₂⟩
  rw [hregex] at h₂
  refine ⟨fun n hn₁ hn₂ hheard => h₁.agree h₂ hfresh₁ hfresh₂ hstop hn₁ hn₂ hheard,
    fun hsteady n₁ n₂ hn₁ hn₂ hrecent => ?_⟩
  have hre : re₁ = re₂ := Option.some.inj (h₁.stop.symm.trans (hstop ▸ h₂.stop))
  rw [h₁.recent hsteady hfresh₁ hn₁, h₂.recent hsteady hfresh₂ hn₂, hrecent, hre]

def floodUntil (stop : String) : Step :=
  .message 1 ⟨.interruptAutoboot, some (.obj [("stop_pattern", .str (ascii stop))])⟩

def outputStep (text : String) : Step :=
  .event (.link ⟨true, false, false⟩ [.data (ascii text), .again])

def watchAfter (steps : List Step) : Watch :=
  (runSteps wordEnv (brokerInit wordEnv.regex (plainConfig []))
    ([.event (.listen (plainReg 1)), .message 1 (helloMsg "a" [])] ++ steps)).watch

theorem flood_stop_noninterference_login :
    let w₁ := watchAfter [floodUntil "login:", outputStep "lo", outputStep "gin:"]
    let w₂ := watchAfter [outputStep "gin:", floodUntil "x", .message 1 ⟨.suspend, none⟩,
      .message 1 ⟨.resume, none⟩, floodUntil "login:", outputStep "lo", outputStep "gin:"]
    w₁.stoppedAt 1 = true ∧ w₁.stoppedAt 1 = w₂.stoppedAt 1 := by
  intro w₁ w₂
  obtain ⟨hstopped, hfresh₁, hfresh₂, hstop, hlength₁, hlength₂, hheard⟩ :
      w₁.stoppedAt 1 = true ∧ w₁.fresh = true ∧ w₂.fresh = true ∧ w₁.stop = w₂.stop ∧
        1 < w₁.heard.length ∧ 1 < w₂.heard.length ∧ w₁.heard.take 2 = w₂.heard.take 2 := by
    decide +kernel
  have hagree := flood_stop_noninterference wordEnv wordEnv rfl (plainConfig [])
    (plainConfig []) _ _ (by simp [floodUntil, outputStep]) (by simp [floodUntil, outputStep])
    hfresh₁ hfresh₂ hstop
  exact ⟨hstopped, hagree.1 1 hlength₁ hlength₂ hheard⟩

/-- The flood before has left its bytes: a new one that has heard `lo` stops at `login:`. -/
theorem stale_tail_stops_flood :
    let w₁ := watchAfter [floodUntil "gin:", outputStep "--gin:", floodUntil "login:",
      outputStep "lo"]
    let w₂ := watchAfter [floodUntil "login:", outputStep "lo"]
    (w₁.stop = w₂.stop ∧ w₁.heard = w₂.heard ∧ w₁.heard = [ascii "lo"]) ∧
      w₁.stoppedAt 0 = true ∧ w₂.stoppedAt 0 = false := by
  decide +kernel

end Smolmux.Broker
