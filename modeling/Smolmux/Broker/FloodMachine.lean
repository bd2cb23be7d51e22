import Smolmux.Broker.Account

/-! The autoboot flood as a machine: its steps, with the events that each tells, and that
whatever the broker does is a run of it. -/

namespace Smolmux.Broker
open Smolmux.Frame List

variable {ρ α : Type}

structure Seek (ρ : Type) where
  tail : Bytes
  tailLen : Nat
  re : Option ρ

def Flood.seek (fl : Flood ρ) : Seek ρ := ⟨fl.tail, fl.tailLen, fl.stopRe⟩

def Seek.finds (regex : Regex ρ) (s : Seek ρ) (buf : Bytes) : Bool :=
  s.re.any fun re =>
    let kept := tailStore s.tail s.tailLen buf
    (regex.exec re (tailText kept.1 kept.2)).1.isSome

def Seek.feed (regex : Regex ρ) (s : Seek ρ) (buf : Bytes) : Seek ρ :=
  match s.re with
  | none => s
  | some re =>
    let kept := tailStore s.tail s.tailLen buf
    ⟨kept.1, kept.2, some (regex.exec re (tailText kept.1 kept.2)).2⟩

namespace Flood

def releases (fl : Flood ρ) (rc : Int) : List Event :=
  if fl.resetPending then [.flood (.released fl.current fl.resetPin fl.resetDeassert rc)] else []

def reports (fl : Flood ρ) (isMatched : Bool) (reason : String) (now : Rat) : List Event :=
  [.flood (.result fl.current isMatched),
    .reply (.flood fl.current) (fl.resultMsg isMatched reason now)]

def letGo (fl : Flood ρ) : Flood ρ := { fl with resetPending := false }

def ended (fl : Flood ρ) : Flood ρ :=
  { fl with stopRe := none, resetPending := false, active := false }

def fed (regex : Regex ρ) (buf : Bytes) (fl : Flood ρ) : Flood ρ :=
  let s := fl.seek.feed regex buf
  { fl with tail := s.tail, tailLen := s.tailLen, stopRe := s.re }

/-- How a request fares: it is turned down, it fails when the line or the timer does, or the
flood begins. -/
inductive Requested (regex : Regex ρ) (r : FloodRequest) (ticket : Nat) (fl : Flood ρ) :
    Int → List Event → Flood ρ → Prop
  | refused (timer : Bool) : Requested regex r ticket fl (-1) [] { fl with timer := timer }
  | failed {fl' : Flood ρ} (hidle : fl.active = false) (hactive : fl'.active = false)
      (hkept : fl'.tail = fl.tail ∧ fl'.next = fl.next ∧ fl'.current = ticket) :
      Requested regex r ticket fl (-1) [] fl'
  | failedHeld {fl' : Flood ρ} (pin value : Bytes) (rc : Int) (hidle : fl.active = false)
      (hactive : fl'.active = false)
      (hkept : fl'.tail = fl.tail ∧ fl'.next = fl.next ∧ fl'.current = ticket) :
      Requested regex r ticket fl (-1)
        [.flood (.asserted ticket pin value), .flood (.released ticket pin value rc)] fl'
  | begun {fl' : Flood ρ} {re : Option ρ} {evs : List Event} (hidle : fl.active = false)
      (hcompile : r.compile regex = some re) (hactive : fl'.active = true)
      (hseek : fl'.seek = ⟨fl.tail, 0, re⟩)
      (hkey : fl'.key = r.key ∧ fl'.current = ticket ∧ fl'.next = fl.next)
      (hid : fl'.msgId = stored 64 (r.msgId.getD []))
      (hevs : evs = if fl'.resetPending then
        [.flood (.asserted ticket fl'.resetPin fl'.resetDeassert)] else []) :
      Requested regex r ticket fl 0 evs fl'

inductive Step (regex : Regex ρ) : Flood ρ → List Event → Flood ρ → Prop
  | count (fl : Flood ρ) : Step regex fl [] { fl with sent := fl.sent + 1 }
  | release {fl : Flood ρ} (rc : Int) (hactive : fl.active = true) :
      Step regex fl (fl.releases rc) fl.letGo
  | finish {fl : Flood ρ} (rc : Int) {reason : String} {now : Rat} (hactive : fl.active = true) :
      Step regex fl (fl.releases rc ++ fl.ended.reports false reason now) fl.ended
  | skip {fl : Flood ρ} {buf : Bytes} (h : fl.active = false ∨ buf = []) :
      Step regex fl [.flood (.fed buf)] fl
  | feed {fl : Flood ρ} {buf : Bytes} (hactive : fl.active = true) (hbuf : buf ≠ [])
      (hfinds : fl.seek.finds regex buf = false) :
      Step regex fl [.flood (.fed buf)] (fl.fed regex buf)
  | hit {fl : Flood ρ} {buf : Bytes} (rc : Int) {reason : String} {now : Rat}
      (hactive : fl.active = true) (hbuf : buf ≠ []) (hfinds : fl.seek.finds regex buf = true) :
      Step regex fl (.flood (.fed buf) ::
        (fl.releases rc ++ (fl.fed regex buf).ended.reports true reason now))
        (fl.fed regex buf).ended
  | request {fl fl' : Flood ρ} (r : FloodRequest) {rc : Int} {evs : List Event}
      (h : Requested regex r fl.next { fl with next := fl.next + 1 } rc evs fl') :
      Step regex fl (.flood (.requested fl.next r.stopPattern) ::
        .asked (.flood fl.next) r.msgId ::
          (evs ++ [.flood (if rc = 0 then .accepted fl.next else .rejected fl.next)])) fl'

inductive Run (regex : Regex ρ) (fl : Flood ρ) : List Event → Flood ρ → Prop
  | nil : Run regex fl [] fl
  | snoc {fl₁ fl₂ : Flood ρ} {es fs : List Event} (h : Run regex fl es fl₁)
      (hstep : Step regex fl₁ fs fl₂) : Run regex fl (es ++ fs) fl₂

variable {regex : Regex ρ} {fl fl₁ fl₂ : Flood ρ} {ns ms : List Event}

theorem Run.single (h : Step regex fl ns fl₁) : Run regex fl ns fl₁ := .snoc .nil h

theorem Run.trans (h : Run regex fl ns fl₁) (h' : Run regex fl₁ ms fl₂) :
    Run regex fl (ns ++ ms) fl₂ := by
  induction h' with
  | nil => rwa [append_nil]
  | snoc _ hstep ih =>
    rw [← append_assoc]
    exact ih.snoc hstep

theorem letGo_eq_self (h : fl.resetPending = false) : fl.letGo = fl := by rw [letGo, ← h]

theorem fed_of_none (regex : Regex ρ) (buf : Bytes) (h : fl.stopRe = none) :
    fl.fed regex buf = fl ∧ fl.seek.finds regex buf = false := by
  have hre : fl.seek.re = none := h
  rw [fed, Seek.feed, Seek.finds, hre]
  exact ⟨rfl, rfl⟩

theorem fed_of_some (regex : Regex ρ) (buf : Bytes) {re : ρ} (h : fl.stopRe = some re) :
    let kept := tailStore fl.tail fl.tailLen buf
    let found := regex.exec re (tailText kept.1 kept.2)
    fl.fed regex buf = { fl with tail := kept.1, tailLen := kept.2, stopRe := some found.2 } ∧
      fl.seek.finds regex buf = found.1.isSome := by
  have hre : fl.seek.re = some re := h
  rw [fed, Seek.feed, Seek.finds, hre]
  exact ⟨rfl, rfl⟩

end Flood

abbrev FloodTells (e : Env ρ) (p : M ρ α) (R : α → List Event → Flood ρ → Prop)
    (fl : Flood ρ) : Prop :=
  Reports (only .flood) Broker.flood e p R fl

variable {e : Env ρ} {fl : Flood ρ} {R : Unit → List Event → Flood ρ → Prop}
  {T : Int → List Event → Flood ρ → Prop} {U : α → List Event → Flood ρ → Prop}

theorem floodTells_moves {S : Sector → Bool} {p : M ρ α} (hS : S .flood = false)
    (hp : (moves S).Keeps p) (h : ∀ a, U a [] fl) : FloodTells e p U fl :=
  reports_moves (fun _ _ hstill => hstill.part .flood rfl) (apart_only hS) hp h

theorem floodTells_plain {p : M ρ α} (hp : plain.Keeps p) (h : ∀ a, U a [] fl) :
    FloodTells e p U fl := floodTells_moves rfl hp h

theorem floodTells_emit {ev : Event} (hev : ev.sector = some .flood) (h : R () [ev] fl) :
    FloodTells e (emit ev) R fl := reports_emit (fun _ => rfl) (hev ▸ rfl) h

theorem floodTells_update {f : Flood ρ → Flood ρ} (h : R () [] (f fl)) :
    FloodTells e (updateFlood f) R fl := reports_modify (fun _ => rfl) fun _ hb => hb ▸ h

theorem floodTells_deassert {ticket : Nat} {pin value : Bytes}
    (h : ∀ rc, T rc [.flood (.released ticket pin value rc)] fl) :
    FloodTells e (floodDeassert ticket pin value) T fl :=
  reports_callLinkAs (fun _ _ hstill => hstill.part .flood rfl) _ rfl (fun _ => rfl)
    (fun _ _ => rfl) h

theorem floodTells_releaseReset (h : ∀ rc, R () (fl.releases rc) fl.letGo) :
    FloodTells e floodReleaseReset R fl := by
  refine tells_get ?_
  rintro b rfl
  refine tells_ite (fun hpending => ?_) fun hfree => tells_pure ?_
  · refine tells_bind (floodTells_deassert fun rc => floodTells_update ?_)
    have hrelease := h rc
    rw [Flood.releases, if_pos hpending] at hrelease
    exact hrelease
  · have hpending : b.flood.resetPending = false := by simpa using hfree
    simpa [Flood.releases, hpending, Flood.letGo_eq_self] using h 0

theorem floodTells_report {isMatched : Bool} {reason : String}
    (h : ∀ now, R () (fl.reports isMatched reason now) fl) :
    FloodTells e (floodReport isMatched reason) R fl := by
  refine tells_bind (floodTells_plain (plain_ask _) fun now => tells_get ?_)
  rintro b rfl
  exact tells_bind (floodTells_emit rfl (tells_bind (floodTells_emit rfl
    (floodTells_plain (plain_broadcast ..) fun _ => h now))))

theorem floodTells_finish {isMatched : Bool} {reason : String}
    (hidle : fl.active = false → R () [] fl)
    (h : fl.active = true → ∀ rc now,
      R () (fl.releases rc ++ fl.ended.reports isMatched reason now) fl.ended) :
    FloodTells e (floodFinish isMatched reason) R fl := by
  refine tells_get ?_
  rintro b rfl
  refine tells_ite (fun hactive => ?_) fun hnot => tells_pure (hidle (by simpa using hnot))
  exact tells_bind (floodTells_update (tells_bind (floodTells_releaseReset fun rc =>
    tells_bind (floodTells_update (floodTells_report (h hactive rc))))))

theorem floodTells_arm {intervalMs : Int} (hok : ∀ sent, T 0 [] { fl with sent := sent })
    (hfail : ∀ rc, T (-1) (fl.releases rc) fl.ended) :
    FloodTells e (floodArm intervalMs) T fl := by
  refine tells_bind (floodTells_plain (plain_ask _) fun rc => tells_ite (fun _ => ?_) fun _ => ?_)
  · refine tells_bind (floodTells_releaseReset fun rc => tells_bind (floodTells_update (tells_pure ?_)))
    have hdown := hfail rc
    rw [← append_nil (fl.releases rc)] at hdown
    exact hdown
  · refine tells_get ?_
    rintro b rfl
    refine tells_bind (floodTells_moves (S := only .wire) rfl (moves_brokerDoWrite rfl _) fun rc => ?_)
    exact tells_bind (tells_when (fun _ => floodTells_update (tells_pure (hok _))) fun _ =>
      tells_pure (hok b.flood.sent))

theorem floodTells_timerEnsure {U : Bool → List Event → Flood ρ → Prop}
    (h : ∀ made timer, U made [] { fl with timer := timer }) :
    FloodTells e floodTimerEnsure U fl := by
  refine tells_get ?_
  rintro b rfl
  exact tells_ite (fun _ => tells_pure (h true b.flood.timer)) fun _ =>
    tells_bind (floodTells_plain plain_timerEnsure fun made =>
      tells_bind (floodTells_update (tells_pure (h made made))))

theorem stored_pin {r : FloodRequest} {pin : Bytes} (hok : r.resetOk)
    (hpin : r.pin = some pin) : stored 8 pin = pin := by
  simp only [FloodRequest.resetOk, hpin, Bool.and_eq_true, Bool.or_eq_true, decide_eq_true_eq] at hok
  obtain ⟨rfl | rfl, -⟩ := hok
  · decide
  · decide

theorem stored_deassertAct (r : FloodRequest) : stored 8 r.deassertAct = r.deassertAct := by
  rw [FloodRequest.deassertAct]
  split_ifs
  · decide
  · decide

theorem floodTells_assert {r : FloodRequest} {ticket : Nat}
    {U : Bool → List Event → Flood ρ → Prop} (hok : r.resetOk) (hnone : U true [] fl)
    (hfail : U false [] { fl with active := false, stopRe := none })
    (hheld : ∀ pin, U true [.flood (.asserted ticket (stored 8 pin) (stored 8 r.deassertAct))]
      (fl.holding r pin)) : FloodTells e (floodAssertReset r ticket) U fl := by
  unfold floodAssertReset
  split
  · exact tells_pure hnone
  case h_2 pin hpin =>
    refine tells_bind (floodTells_moves (S := only .wire) rfl (moves_callLink _ rfl) fun rc =>
        tells_ite (fun _ => tells_bind (floodTells_update (tells_pure hfail))) fun _ => ?_)
    have hnoted := hheld pin
    rw [stored_pin hok hpin, stored_deassertAct] at hnoted
    exact tells_bind (floodTells_emit rfl (tells_bind (floodTells_update (tells_pure hnoted))))

theorem floodTells_request (r : FloodRequest) (ticket : Nat) (fl : Flood ρ) :
    FloodTells e (floodRequest r ticket) (Flood.Requested e.regex r ticket fl) fl := by
  refine tells_env (tells_get ?_)
  rintro b rfl
  refine tells_ite (fun _ => tells_pure (.refused _)) fun _ =>
    tells_ite (fun _ => tells_pure (.refused _)) fun hbusy =>
      tells_ite (fun _ => tells_pure (.refused _)) fun _ =>
        tells_ite (fun _ => tells_pure (.refused _)) fun hok => ?_
  have hidle : b.flood.active = false := by simpa using hbusy
  have hok : r.resetOk := by simpa using hok
  cases hcompile : r.compile e.regex with
  | none => exact tells_pure (.refused _)
  | some re =>
    refine tells_bind (floodTells_timerEnsure fun _ timer => tells_ite (fun _ => ?_) fun _ =>
      tells_pure (.refused timer))
    refine tells_bind (floodTells_plain (plain_ask _) fun start => tells_bind (floodTells_update
      (tells_bind (floodTells_assert hok ?_ ?_ fun pin => ?_))))
    · refine tells_ite (fun _ => floodTells_arm (fun sent => ?_) fun rc => ?_) fun h => absurd rfl h
      · exact .begun hidle hcompile rfl rfl ⟨rfl, rfl, rfl⟩ rfl rfl
      · exact .failed hidle rfl ⟨rfl, rfl, rfl⟩
    · exact tells_ite nofun fun _ => tells_pure (.failed hidle rfl ⟨rfl, rfl, rfl⟩)
    · refine tells_ite (fun _ => floodTells_arm (fun sent => ?_) fun rc => ?_) fun h => absurd rfl h
      · exact .begun hidle hcompile rfl rfl ⟨rfl, rfl, rfl⟩ rfl rfl
      · exact .failedHeld _ _ rc hidle rfl ⟨rfl, rfl, rfl⟩

section Refinement

theorem floodTells_start (r : FloodRequest) :
    FloodTells e (brokerStartFlood r) (fun rc evs fl' => ∃ es,
      Flood.Requested e.regex r fl.next { fl with next := fl.next + 1 } rc es fl' ∧
        evs = .flood (.requested fl.next r.stopPattern) :: .asked (.flood fl.next) r.msgId ::
          (es ++ [.flood (if rc = 0 then .accepted fl.next else .rejected fl.next)])) fl := by
  refine tells_get ?_
  rintro b rfl
  exact tells_bind (floodTells_update (tells_bind (floodTells_emit rfl (tells_bind
    (floodTells_emit rfl (tells_bind ((floodTells_request r _ _).mono fun rc es fl' h => tells_bind
      (floodTells_emit rfl (tells_pure ⟨es, h, rfl⟩)))))))))

theorem floodTells_feed (buf : Bytes) :
    FloodTells e (floodFeed buf) (fun _ => Flood.Run e.regex fl) fl := by
  refine tells_env (tells_get ?_)
  rintro b rfl
  refine tells_bind (floodTells_emit rfl ?_)
  by_cases hidle : b.flood.active = false ∨ buf = []
  · have hskip : Flood.Run e.regex b.flood [.flood (.fed buf)] b.flood := .single (.skip hidle)
    split
    · exact tells_pure hskip
    · exact tells_ite (fun _ => tells_pure hskip) fun h => absurd hidle h
  · rw [not_or, Bool.not_eq_false] at hidle
    split
    case h_1 hstop =>
      obtain ⟨hsame, hfinds⟩ := Flood.fed_of_none e.regex buf hstop
      have hstep := Flood.Step.feed hidle.1 hidle.2 hfinds
      rw [hsame] at hstep
      exact tells_pure (.single hstep)
    case h_2 re hstop =>
      obtain ⟨hfed, hfinds⟩ := Flood.fed_of_some e.regex buf hstop
      refine tells_ite (fun h => absurd h (by simp [hidle])) fun _ => tells_bind
        (floodTells_update ?_)
      rw [← hfed, ← hfinds]
      refine tells_ite (fun hfound => floodTells_finish ?_ fun _ rc now => ?_) fun hnot => ?_
      · exact fun hnot => absurd (hidle.1.symm.trans hnot) Bool.true_eq_false.mp
      · exact .single (.hit rc hidle.1 hidle.2 hfound)
      · exact tells_pure (.single (.feed hidle.1 hidle.2 (by simpa using hnot)))

theorem runs_bind {β : Type} {p : M ρ α} {k : α → M ρ β}
    (hp : FloodTells e p (fun _ => Flood.Run e.regex fl) fl)
    (hk : ∀ a fl', FloodTells e (k a) (fun _ => Flood.Run e.regex fl') fl') :
    FloodTells e (p >>= k) (fun _ => Flood.Run e.regex fl) fl :=
  tells_bind (hp.mono fun a _ fl' h => (hk a fl').mono fun _ _ _ h' => h.trans h')

theorem runs_finish {reason : String} :
    FloodTells e (floodFinish false reason) (fun _ => Flood.Run e.regex fl) fl :=
  floodTells_finish (fun _ => .nil) fun hactive rc _ => .single (.finish rc hactive)

theorem floodTells_timer : FloodTells e handleFloodTimer (fun _ => Flood.Run e.regex fl) fl := by
  refine tells_get ?_
  rintro b rfl
  refine tells_ite (fun hactive => ?_) fun _ => tells_pure .nil
  refine tells_bind (floodTells_plain (keeps_ite (fun _ => plain_ask _) fun _ => keeps_pure _)
    fun _ => runs_bind (tells_when (fun _ => floodTells_releaseReset fun rc =>
      .single (.release rc hactive)) fun _ => .nil) fun _ fl => ?_)
  refine tells_bind (floodTells_plain (plain_ask _) fun _ => tells_ite (fun _ => runs_finish)
    fun _ => tells_bind (floodTells_moves (S := only .wire) rfl (moves_brokerDoWrite rfl _)
      fun _ => tells_ite (fun _ => runs_finish) fun _ => floodTells_update (.single (.count _))))

variable {F : Frame (Broker ρ)}

theorem rel_of_run {b b' : Broker ρ} {evs : List Event}
    (hstep : ∀ (b b' : Broker ρ) evs, b'.about (only .flood) = b.about (only .flood) ++ evs →
      Flood.Step e.regex b.flood evs b'.flood → F.rel b b')
    (hstill : ∀ b b' : Broker ρ, b'.about (only .flood) = b.about (only .flood) →
      b'.flood = b.flood → F.rel b b')
    (htold : b'.about (only .flood) = b.about (only .flood) ++ evs)
    (hrun : Flood.Run e.regex b.flood evs b'.flood) : F.rel b b' := by
  generalize hfl : b'.flood = fl at hrun
  induction hrun generalizing b' with
  | nil => exact hstill b b' (by rw [htold, append_nil]) hfl
  | @snoc fl₁ fl₂ es fs hrun hlast ih =>
    -- a state between the two with just what was told
    let b₁ : Broker ρ := { b with flood := fl₁, trace := b.trace ++ es }
    have hes : es.filter (fun ev => ev.sector.any (only .flood)) = es := by
      refine filter_eq_self.mpr fun ev hev => (mem_about (b := b').mp ?_).2
      rw [htold]
      exact mem_append_right _ (mem_append_left _ hev)
    have htold₁ : b₁.about (only .flood) = b.about (only .flood) ++ es := by
      rw [Broker.about, filter_append, hes, Broker.about]
    refine F.trans (ih htold₁ rfl) (hstep b₁ b' fs ?_ (hfl ▸ hlast))
    rw [htold, htold₁, append_assoc]

theorem turnFrame_of_steps
    (hstep : ∀ (b b' : Broker ρ) evs, b'.about (only .flood) = b.about (only .flood) ++ evs →
      Flood.Step e.regex b.flood evs b'.flood → F.rel b b')
    (hstill : ∀ b b' : Broker ρ, b'.about (only .flood) = b.about (only .flood) →
      b'.flood = b.flood → F.rel b b') : TurnFrame e F := by
  have hruns : ∀ {α : Type} {p : M ρ α} (b : Broker ρ),
      FloodTells e p (fun _ => Flood.Run e.regex b.flood) b.flood → F.rel b (p e b).2 := by
    intro α p b h
    obtain ⟨evs, htold, hrun⟩ := h b rfl
    exact rel_of_run hstep hstill htold hrun
  refine turnFrame_of_still (T := only .flood) rfl
    (fun b b' h => hstill b b' h.told (h.part .flood rfl)) fun op b hturn hapart hready => ?_
  cases op with
  | startFlood r =>
    refine hruns b ((floodTells_start r).mono ?_)
    rintro rc _ fl' ⟨es, hreq, rfl⟩
    exact .single (.request r hreq)
  | feedFlood buf => exact hruns b (floodTells_feed buf)
  | floodTimer => exact hruns b floodTells_timer
  | cancelFlood => exact hruns b runs_finish
  | stopFlood => exact absurd rfl hturn
  | _ => exact absurd (apart_of_all rfl) hapart

end Refinement

end Smolmux.Broker
