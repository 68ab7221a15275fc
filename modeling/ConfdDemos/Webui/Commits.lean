import Mathlib.Data.List.Forall2
import Mathlib.Data.List.Perm.Basic
import ConfdDemos.Webui.OpenTransaction

/-!
# What a commit is said to have stored

Edits are sent without waiting for their replies, and what the tree shows is what was sent. When the
stores report a commit, ConfD has stored it with these edits, except those it has refused, and it
has stored nothing else (`committed_as_reported`). This needs more patience than in
`OpenTransaction.lean`: a commit must not overtake an edit, and an edit must not be made while
another request than an edit is on its way. The edits may then still have been served in another
order, unless ConfD serves the requests in the order in which they were sent.
-/

namespace ConfdDemos.Webui

variable {ε : Type*}

def Sent.unservedEdit (r : Sent ε) : Option ε :=
  match r.request with
  | .edit _ e => if r.reply.isSome then none else some e
  | _ => none

/-- The edits on their way that were not served. -/
def unserved (l : List (Sent ε)) : List ε := l.filterMap Sent.unservedEdit

/-- A button is pressed when nothing is on its way, and an edit made when nothing but edits is. No
reply gets lost and no edit, a commit is accepted, the session lasts, and the requests are served in
order if that is asked for. -/
def Patient (ordered : Bool) (s : Web ε) : WebEvent ε → Prop
  | .click (.edit _) => s.control = []
  | .click _ => s.inFlight = []
  | .serve i d => (∀ r ∈ s.inFlight[i]?, r.request.isCommit = true → d.accepts = true) ∧
      (ordered = true → ∀ r ∈ s.inFlight.take i, r.reply.isSome = true)
  | .receive _ => True
  | .fail i => ∀ r ∈ s.inFlight[i]?, r.request.isEdit = false ∧ r.reply = none
  | .expire _ => False

instance (ordered : Bool) (s : Web ε) (e : WebEvent ε) : Decidable (Patient ordered s e) :=
  match e with
  | .click (.edit _) => inferInstanceAs (Decidable (s.control = []))
  | .click .login | .click .logout | .click (.newTransaction ..) | .click .deleteTransaction
  | .click .showChanges | .click .closeChanges | .click .commit =>
    inferInstanceAs (Decidable (s.inFlight = []))
  | .serve _ _ => inferInstanceAs (Decidable (_ ∧ _))
  | .receive _ => inferInstanceAs (Decidable True)
  | .fail i => inferInstanceAs
    (Decidable (∀ r ∈ s.inFlight[i]?, r.request.isEdit = false ∧ r.reply = none))
  | .expire _ => inferInstanceAs (Decidable False)

/-- The same edits, and in the same order if that is asked for. -/
def SameEdits (ordered : Bool) (l l' : List ε) : Prop := l.Perm l' ∧ (ordered = true → l = l')

/-- A transaction and what was reported of it. -/
def Stored (ordered : Bool) (t : Trans ε) (r : ℤ × List ε) : Prop :=
  t.th = r.1 ∧ SameEdits ordered (t.answers.map Prod.fst) r.2

structure Kept (ordered : Bool) (s : Web ε) : Prop where
  accounted : Accounted s
  /-- Edits and other requests are not on their way at the same time. -/
  apart : s.control = [] ∨ s.inFlight = s.control
  edits : ∀ r ∈ s.inFlight, r.request.isEdit = true →
    r.cookie = s.ui.cookie ∧ s.ui.isWriteTrans = true ∧ ∃ e, r.request = .edit s.ui.transHandle e
  alive : s.expected.connected = true →
    ∃ sid, s.expected.cookie = some sid ∧ sid ∈ s.server.sessions
  made : ∀ t ∈ s.server.trans,
    SameEdits ordered (t.answers.map Prod.fst ++ unserved s.inFlight) s.expected.made
  committed : List.Forall₂ (Stored ordered) s.server.committed s.expected.reported

section Kept

variable {ordered : Bool} {s s' : Web ε} {ui : Ui ε} {v v' : Server ε} {r : Sent ε} {i : ℕ}
  {d : Decision} {c : Click ε} {e : ε} {q : Request ε} {reply : Reply} {l l' u u' : List ε}

theorem SameEdits.refl (l : List ε) : SameEdits ordered l l := ⟨.refl l, fun _ ↦ rfl⟩

theorem SameEdits.snoc (h : SameEdits ordered l l') (e : ε) :
    SameEdits ordered (l ++ [e]) (l' ++ [e]) :=
  ⟨h.1.append_right [e], fun ho ↦ by rw [h.2 ho]⟩

/-- An edit that is served is answered after the others. -/
theorem SameEdits.serve (h : SameEdits ordered (l ++ (u ++ e :: u')) l')
    (hu : ordered = true → u = []) : SameEdits ordered (l ++ [e] ++ (u ++ u')) l' := by
  refine ⟨?_, fun ho ↦ ?_⟩
  · refine List.Perm.trans ?_ h.1
    rw [List.append_assoc, List.singleton_append]
    exact List.Perm.append_left l List.perm_middle.symm
  · rw [← h.2 ho, hu ho]
    simp

theorem unserved_append (l l' : List (Sent ε)) : unserved (l ++ l') = unserved l ++ unserved l' :=
  List.filterMap_append

theorem Sent.unservedEdit_of_reply (h : r.reply.isSome = true) : r.unservedEdit = none := by
  rw [unservedEdit]
  split
  · exact if_pos h
  · rfl

theorem Sent.unservedEdit_of_control (h : r.request.isEdit = false) : r.unservedEdit = none := by
  rw [unservedEdit]
  split
  next heq =>
    rw [heq] at h
    exact nomatch h
  next => rfl

theorem unserved_eq_nil {l : List (Sent ε)} (h : ∀ r ∈ l, r.reply.isSome = true) :
    unserved l = [] := by
  rw [unserved, List.filterMap_eq_nil_iff]
  exact fun r hr ↦ Sent.unservedEdit_of_reply (h r hr)

theorem Web.control_of_nil (h : s.inFlight = []) : s.control = [] := by
  rw [control, h, List.filter_nil]

theorem Patient.alone {e : WebEvent ε} (h : Patient ordered s e) : Alone s e := by
  rcases e with c | ⟨i, d⟩ | i | i | sid
  · rcases c with _ | _ | _ | _ | _ | _ | _ | _
    case edit => trivial
    all_goals exact Web.control_of_nil h
  · exact h.1
  · trivial
  · exact fun r hr ↦ .inr (h r hr).2
  · trivial

/-- Nothing but edits is on its way when one is. -/
theorem Kept.control_of_isEdit (hs : Kept ordered s) (hr : r ∈ s.inFlight)
    (hedit : r.request.isEdit = true) : s.control = [] := by
  rcases hs.apart with hnone | hall
  · exact hnone
  · rw [hall] at hr
    exact absurd (List.mem_filter.mp hr).2 (by rw [hedit]; decide)

/-- The stores know of a session that lives. -/
theorem Kept.session (hs : Kept ordered s) (hnone : s.expected = s.ui)
    (hw : s.ui.isWriteTrans = true) :
    ∃ sid, s.ui.cookie = some sid ∧ sid ∈ s.server.sessions := by
  have hconnected : s.ui.connected = true :=
    (Bool.eq_false_or_eq_true _).resolve_right fun hc ↦
      hs.accounted.ui.write hw (hs.accounted.ui.idle hc)
  have halive := hs.alive
  rw [hnone] at halive
  exact halive hconnected

theorem kept_webStart : Kept ordered (webStart : Web ε) where
  accounted := accounted_webStart
  apart := .inl rfl
  edits _ hr := absurd hr List.not_mem_nil
  alive hc := (Bool.false_ne_true hc).elim
  made _ ht := absurd ht List.not_mem_nil
  committed := .nil

/-- An edit is made. -/
theorem Kept.edit (hs : Kept ordered s) (hnone : s.control = [])
    (h : s.ui.enabled (.edit e) = true) (hs' : Accounted (s.click (.edit e))) :
    Kept ordered (s.click (.edit e)) := by
  rw [Web.click_edit hs.accounted.ui h] at hs' ⊢
  have hwrite : s.ui.isWriteTrans = true := (Bool.and_eq_true_iff.mp h).2
  have hexpected := s.expected_of_nil hnone
  have hcontrol : Web.control { s with
      ui := { s.ui with made := s.ui.made ++ [e] }
      inFlight := s.inFlight ++ [⟨s.ui.cookie, .edit s.ui.transHandle e, none⟩] } = [] := by
    rw [Web.control, List.filter_append]
    exact (List.append_nil _).trans hnone
  have hexpected' := Web.expected_of_nil hcontrol
  have halive := hs.alive
  have hmade := hs.made
  have hcommitted := hs.committed
  rw [hexpected] at halive hmade hcommitted
  refine ⟨hs', .inl hcontrol, fun r hr hedit ↦ ?_, ?_, fun t ht ↦ ?_, ?_⟩
  · rcases List.mem_append.mp hr with hr | hr
    · exact hs.edits r hr hedit
    · rw [List.mem_singleton.mp hr]
      exact ⟨rfl, hwrite, e, rfl⟩
  · rw [hexpected']
    exact halive
  · rw [hexpected', unserved_append, ← List.append_assoc]
    exact (hmade t ht).snoc e
  · rw [hexpected']
    exact hcommitted

/-- What the reports rely on, with nothing but a request on its way that is no edit. -/
structure Settled (ordered : Bool) (v : Server ε) (ui : Ui ε) : Prop where
  alive : ui.connected = true → ∃ sid, ui.cookie = some sid ∧ sid ∈ v.sessions
  made : ∀ t ∈ v.trans, SameEdits ordered (t.answers.map Prod.fst) ui.made
  committed : List.Forall₂ (Stored ordered) v.committed ui.reported

theorem Settled.rendered (h : Settled ordered v ui) (ui₀ : Ui ε) :
    Settled ordered v (ui₀.rendered ui) := by
  rw [Ui.rendered]
  split_ifs
  · exact ⟨h.alive, h.made, h.committed⟩
  · exact h

theorem Kept.settled (hs : Kept ordered s) (h : unserved s.inFlight = []) :
    Settled ordered s.server s.expected := by
  refine ⟨hs.alive, fun t ht ↦ ?_, hs.committed⟩
  have hmade := hs.made t ht
  rwa [h, List.append_nil] at hmade

theorem Kept.of_settled (hs : Accounted s) (hcontrol : s.inFlight = s.control)
    (h : Settled ordered s.server s.expected) : Kept ordered s := by
  have hedits (r : Sent ε) (hr : r ∈ s.inFlight) : r.request.isEdit = false := by
    rw [hcontrol] at hr
    simpa using (List.mem_filter.mp hr).2
  have hnone : unserved s.inFlight = [] := by
    rw [unserved, List.filterMap_eq_nil_iff]
    exact fun r hr ↦ Sent.unservedEdit_of_control (hedits r hr)
  refine ⟨hs, .inr hcontrol, fun r hr hedit ↦ ?_, h.alive, fun t ht ↦ ?_, h.committed⟩
  · exact absurd (hedit.symm.trans (hedits r hr)) (by decide)
  · rw [hnone, List.append_nil]
    exact h.made t ht

/-- The stores change while nothing is on its way. -/
theorem Kept.of_setUi (hs : Accounted (s.setUi ui)) (hnone : s.inFlight = [])
    (h : Settled ordered s.server ui) : Kept ordered (s.setUi ui) := by
  have hcontrol : (s.setUi ui).control = [] := Web.control_of_nil hnone
  refine .of_settled hs (hnone.trans hcontrol.symm) ?_
  rw [Web.expected_of_nil hcontrol]
  exact h.rendered s.ui

/-- A request is sent while nothing is on its way. -/
theorem Kept.of_send (hnone : s.inFlight = []) (hfits : s.ui.Fits q)
    (h : Settled ordered s.server s.ui)
    (hs : Accounted { s with inFlight := s.inFlight ++ [⟨s.ui.cookie, q, none⟩] }) :
    Kept ordered { s with inFlight := s.inFlight ++ [⟨s.ui.cookie, q, none⟩] } := by
  have hedit : q.isEdit = false := by
    rcases q with _ | _ | _ | _ | _ | _ | _ | _
    case edit => exact hfits.elim
    all_goals rfl
  have hcontrol : Web.control { s with inFlight := s.inFlight ++ [⟨s.ui.cookie, q, none⟩] } =
      [⟨s.ui.cookie, q, none⟩] := by
    rw [Web.control, hnone, List.nil_append, List.filter_cons_of_pos, List.filter_nil]
    rw [hedit]
    rfl
  refine .of_settled hs ?_ ?_
  · rw [hcontrol, hnone, List.nil_append]
  · rw [Web.expected_of_singleton hcontrol]
    exact h

/-- A button other than those of edits. -/
theorem Kept.click (hs : Kept ordered s) (hnone : s.inFlight = [])
    (henabled : s.ui.enabled c = true) (hc : ∀ e, c ≠ .edit e) (hs' : Accounted (s.click c)) :
    Kept ordered (s.click c) := by
  have hsettled := hs.settled (by rw [hnone]; rfl)
  rw [s.expected_of_nil (Web.control_of_nil hnone)] at hsettled
  rcases Web.click_control hs.accounted.ui henabled hc with ⟨q, hq, hfits⟩ | hq
  · rw [hq] at hs' ⊢
    exact .of_send hnone hfits hsettled hs'
  · rw [hq] at hs' ⊢
    exact .of_setUi hs' hnone ⟨hsettled.alive, hsettled.made, hsettled.committed⟩

/-- **Serving a request.** What is reported with its reply is what ConfD has stored. -/
theorem Settled.serve (h : Settled ordered v ui) (hagree : v.opened = ui.shown v.sessions)
    (hui : ui.Sound) (hfits : ui.Fits q) (hd : q.isCommit = true → d.accepts = true)
    (hs : v.serve ui.cookie d q = some (v', reply)) :
    Settled ordered v' (ui.receive q reply).1 := by
  rcases q with _ | _ | ⟨isWrite, targetDb⟩ | th | th | ⟨th, dialog⟩ | ⟨th, dialog⟩ | ⟨th, e⟩
  · -- `login`
    have hx := Option.some_inj.mp hs
    split_ifs at hx
    · obtain ⟨rfl, rfl⟩ := Prod.mk.inj hx
      exact ⟨fun _ ↦ ⟨_, rfl, List.mem_cons_self⟩, h.made, h.committed⟩
    · obtain ⟨rfl, rfl⟩ := Prod.mk.inj hx
      exact h
  · -- `logout`
    rcases Server.inSession_cases hs with ⟨sid, -, -, hx⟩ | ⟨-, hx⟩
    · obtain ⟨rfl, rfl⟩ := Prod.mk.inj (Option.some_inj.mp hx)
      exact ⟨fun hc ↦ (Bool.false_ne_true hc).elim,
        fun t ht ↦ h.made t (List.mem_filter.mp ht).1, h.committed⟩
    · obtain ⟨rfl, rfl⟩ := Prod.mk.inj hx
      exact ⟨fun hc ↦ (Bool.false_ne_true hc).elim, h.made, h.committed⟩
  · -- `newTrans`
    rcases Server.inSession_cases hs with ⟨sid, -, -, hx⟩ | ⟨-, hx⟩
    · split_ifs at hx with haccepts hnew
      · obtain ⟨rfl, rfl⟩ := Prod.mk.inj (Option.some_inj.mp hx)
        exact h
      · obtain ⟨rfl, rfl⟩ := Prod.mk.inj (Option.some_inj.mp hx)
        refine ⟨h.alive, fun t ht ↦ ?_, h.committed⟩
        have htrans : v.trans = [] :=
          Server.opened_eq_nil.mp (hagree.trans (ui.shown_eq_nil hfits.2))
        simp only [htrans, List.nil_append, List.mem_singleton] at ht
        rw [ht]
        exact .refl []
    · obtain ⟨rfl, rfl⟩ := Prod.mk.inj hx
      exact h
  · -- `deleteTrans`
    rcases Server.inTrans_cases hs with ⟨t, hx⟩ | hx
    · obtain ⟨rfl, rfl⟩ := Prod.mk.inj hx
      exact ⟨h.alive, fun t ht ↦ h.made t (List.mem_filter.mp ht).1, h.committed⟩
    · obtain ⟨rfl, rfl⟩ := Prod.mk.inj hx
      exact ⟨h.alive, h.made, h.committed⟩
  · -- `getTransChanges`
    obtain rfl : v' = v := Server.inTrans_fst hs fun _ ↦ rfl
    exact ⟨h.alive, h.made, h.committed⟩
  · -- `validateCommit`
    obtain rfl : v' = v := Server.inTrans_fst hs fun _ ↦ rfl
    exact h
  · -- `commit`
    obtain ⟨rfl, rfl, hmounted⟩ := hfits
    obtain ⟨hwrite, hth⟩ := hui.of_mounted hmounted
    have hconnected : ui.connected = true :=
      (Bool.eq_false_or_eq_true _).resolve_right fun hc ↦ hth (hui.idle hc)
    obtain ⟨sid, hcookie, hsid⟩ := h.alive hconnected
    have hreceive : (ui.receive (.commit ui.transHandle ui.dialog) reply).1 = ui.doCommit :=
      if_pos rfl
    rw [hreceive]
    rcases Server.inTrans_shown hagree hth hs with ⟨t, ht, -, -, hhandle, htw, hx⟩ | ⟨hdead, -⟩
    · rw [hd rfl, htw, hwrite] at hx
      obtain ⟨rfl, rfl⟩ := Prod.mk.inj hx
      refine ⟨h.alive, fun u hu ↦ ?_, ?_⟩
      · have hnil : (v.commit t).trans = [] := Server.trans_close ht
        rw [hnil] at hu
        exact absurd hu List.not_mem_nil
      · have hstored : Stored ordered t (ui.transHandle, ui.made) :=
          ⟨hhandle, h.made t (ht ▸ List.mem_singleton_self t)⟩
        exact List.rel_append h.committed (.cons hstored .nil)
    · exact absurd hsid (hdead sid hcookie)
  · exact hfits.elim

/-- A request that is no edit is the only one. -/
theorem Kept.inFlight_of_mem (hs : Kept ordered s) {l : List (Sent ε)}
    (hl : s.inFlight = s.inFlight.take i ++ r :: l) (hedit : r.request.isEdit = false) :
    s.inFlight.take i = [] ∧ l = [] := by
  obtain ⟨hone, -⟩ := hs.accounted.control_of_mem hl hedit
  have hall : s.inFlight = s.control := by
    refine hs.apart.resolve_left fun hnone ↦ ?_
    rw [hone] at hnone
    exact List.cons_ne_nil _ _ hnone
  rw [hone] at hall
  rw [hall] at hl ⊢
  rcases List.append_eq_singleton_iff.mp hl.symm with ⟨htake, hcons⟩ | ⟨-, hcons⟩
  · exact ⟨htake, (List.cons.inj hcons).2⟩
  · exact absurd hcons (List.cons_ne_nil _ _)

/-- ConfD serves an edit. -/
theorem Kept.serve_edit (hs : Kept ordered s) {l : List (Sent ε)} {x : Server ε × Reply}
    (hl : s.inFlight = s.inFlight.take i ++ r :: l) (hedit : r.request.isEdit = true)
    (hreply : r.reply = none) (hserve : s.server.serve r.cookie d r.request = some x)
    (hordered : ordered = true → ∀ r ∈ s.inFlight.take i, r.reply.isSome = true)
    (hs' : Accounted { s with server := x.1
                              inFlight := s.inFlight.take i ++
                                { r with reply := some x.2 } :: l }) :
    Kept ordered { s with server := x.1
                          inFlight := s.inFlight.take i ++ { r with reply := some x.2 } :: l } := by
  have hmem : r ∈ s.inFlight := hl ▸ List.mem_append_right _ List.mem_cons_self
  have hnone := hs.control_of_isEdit hmem hedit
  have hexpected := s.expected_of_nil hnone
  obtain ⟨hcookie, hwrite, e, he⟩ := hs.edits r hmem hedit
  obtain ⟨sid, hsid, hsession⟩ := hs.session hexpected hwrite
  have hagree := hs.accounted.agree
  have hmade := hs.made
  have hcommitted := hs.committed
  have halive := hs.alive
  rw [hexpected] at hagree hmade hcommitted halive
  rw [hcookie, he] at hserve
  rcases Server.inTrans_shown hagree (hs.accounted.ui.write hwrite) hserve with
    ⟨t, ht, -, -, -, htw, rfl⟩ | ⟨hdead, -⟩
  · have hcontrol : Web.control { s with
        server := s.server.answer t e (d.accepts && t.isWrite)
        inFlight := s.inFlight.take i ++ { r with reply := some (if d.accepts && t.isWrite then
          .result else .error d.errors) } :: l } = [] := by
      have hrest := (Web.control_of_isEdit hl hedit).symm.trans hnone
      refine (Web.control_of_isEdit rfl ?_).trans hrest
      exact hedit
    have hexpected' := Web.expected_of_nil hcontrol
    refine ⟨hs', .inl hcontrol, fun r' hr' hedit' ↦ ?_, ?_, fun u hu ↦ ?_, ?_⟩
    · rcases List.mem_append.mp hr' with hr' | hr'
      · exact hs.edits r' (hl ▸ List.mem_append_left _ hr') hedit'
      · rcases List.mem_cons.mp hr' with rfl | hr'
        · exact hs.edits r hmem hedit
        · exact hs.edits r' (hl ▸ List.mem_append_right _ (List.mem_cons_of_mem _ hr')) hedit'
    · rw [hexpected']
      exact halive
    · have hanswer : (s.server.answer t e (d.accepts && t.isWrite)).trans =
          [{ t with answers := t.answers ++ [(e, d.accepts && t.isWrite)] }] := by
        rw [Server.answer, ht, List.map_singleton, if_pos]
        rw [beq_self_eq_true, beq_self_eq_true, Bool.and_self]
      rw [hanswer, List.mem_singleton] at hu
      have hbefore := hmade t (ht ▸ List.mem_singleton_self t)
      have hunserved : r.unservedEdit = some e := by
        rw [Sent.unservedEdit, he, hreply]
        rfl
      rw [hl, unserved_append, unserved, unserved, List.filterMap_cons_some hunserved] at hbefore
      rw [hexpected', hu, unserved_append, unserved, unserved,
        List.filterMap_cons_none (Sent.unservedEdit_of_reply rfl), List.map_append]
      exact hbefore.serve fun ho ↦ unserved_eq_nil (hordered ho)
    · rw [hexpected']
      exact hcommitted
  · exact absurd hsession (hdead sid hsid)

/-- ConfD serves a request. -/
theorem Kept.serve (hs : Kept ordered s) (hd : Patient ordered s (.serve i d))
    (h : webMachine.step s (.serve i d) = some s') (hs' : Accounted s') : Kept ordered s' := by
  obtain ⟨r, l, ⟨v, reply⟩, hr, hl, hnone, hserve, rfl⟩ := step_serve h
  rcases Bool.eq_false_or_eq_true r.request.isEdit with hedit | hedit
  · exact hs.serve_edit hl hedit hnone hserve hd.2 hs'
  · obtain ⟨htake, rfl⟩ := hs.inFlight_of_mem hl hedit
    obtain ⟨hone, -, hcookie, hfits⟩ := hs.accounted.control_of_mem hl hedit
    have hexpected : s.expected = s.ui := by
      rw [s.expected_of_singleton hone, Ui.arrive, hnone]
    have hunserved : unserved s.inFlight = [] := by
      rw [hl, htake, List.nil_append, unserved,
        List.filterMap_cons_none (Sent.unservedEdit_of_control hedit), List.filterMap_nil]
    have hsettled := hs.settled hunserved
    have hagree := hs.accounted.agree
    rw [hexpected] at hsettled hagree
    rw [hcookie] at hserve
    have hsettled' := hsettled.serve hagree hs.accounted.ui hfits (hd.1 r hr) hserve
    rw [htake] at hs' ⊢
    have hcontrol : Web.control { s with server := v
                                         inFlight := [] ++ [{ r with reply := some reply }] } =
        [{ r with reply := some reply }] := by
      rw [Web.control, List.nil_append, List.filter_cons_of_pos, List.filter_nil]
      rw [hedit]
      rfl
    refine .of_settled hs' hcontrol.symm ?_
    rw [Web.expected_of_singleton hcontrol]
    exact hsettled'

/-- The handler of an edit has nothing to do. -/
theorem Kept.remove_edit (hs : Kept ordered s) {l : List (Sent ε)}
    (hl : s.inFlight = s.inFlight.take i ++ r :: l) (hedit : r.request.isEdit = true)
    (hreply : r.reply.isSome = true)
    (hs' : Accounted { s with inFlight := s.inFlight.take i ++ l }) :
    Kept ordered { s with inFlight := s.inFlight.take i ++ l } := by
  have hmem : r ∈ s.inFlight := hl ▸ List.mem_append_right _ List.mem_cons_self
  have hnone := hs.control_of_isEdit hmem hedit
  have hcontrol : Web.control { s with inFlight := s.inFlight.take i ++ l } = [] :=
    (Web.control_of_isEdit hl hedit).symm.trans hnone
  have hexpected : Web.expected { s with inFlight := s.inFlight.take i ++ l } = s.expected :=
    (Web.expected_of_nil hcontrol).trans (s.expected_of_nil hnone).symm
  have hunserved : unserved (s.inFlight.take i ++ l) = unserved s.inFlight := by
    conv_rhs => rw [hl]
    rw [unserved_append, unserved_append, unserved, unserved, unserved,
      List.filterMap_cons_none (Sent.unservedEdit_of_reply hreply)]
  refine ⟨hs', .inl hcontrol, fun r' hr' hedit' ↦ ?_, ?_, ?_, ?_⟩
  · refine hs.edits r' ?_ hedit'
    rw [hl]
    rcases List.mem_append.mp hr' with hr' | hr'
    · exact List.mem_append_left _ hr'
    · exact List.mem_append_right _ (List.mem_cons_of_mem _ hr')
  · rw [hexpected]
    exact hs.alive
  · rw [hexpected, hunserved]
    exact hs.made
  · rw [hexpected]
    exact hs.committed

/-- The handler of a request goes on. -/
theorem Kept.receive (hs : Kept ordered s) (h : webMachine.step s (.receive i) = some s')
    (hs' : Accounted s') : Kept ordered s' := by
  obtain ⟨r, l, reply, -, hl, hreply, rfl⟩ := step_receive h
  rcases Bool.eq_false_or_eq_true r.request.isEdit with hedit | hedit
  · have hsame : Web.receive { s with inFlight := s.inFlight.take i ++ l } r reply =
        { s with inFlight := s.inFlight.take i ++ l } := by
      obtain ⟨cookie, q, reply₀⟩ := r
      rcases q with _ | _ | _ | _ | _ | _ | _ | ⟨th, e⟩
      all_goals first | exact (Bool.false_ne_true hedit).elim | skip
      rw [Web.receive, Ui.receive, Web.setUi, Ui.rendered_of_eq rfl]
      rfl
    rw [hsame] at hs' ⊢
    exact hs.remove_edit hl hedit (by rw [hreply]; rfl) hs'
  · obtain ⟨htake, rfl⟩ := hs.inFlight_of_mem hl hedit
    obtain ⟨hone, -, -, hfits⟩ := hs.accounted.control_of_mem hl hedit
    have hexpected : s.expected = (s.ui.receive r.request reply).1 := by
      rw [s.expected_of_singleton hone, Ui.arrive, hreply]
    have hunserved : unserved s.inFlight = [] := by
      rw [hl, htake, List.nil_append, unserved,
        List.filterMap_cons_none (Sent.unservedEdit_of_control hedit), List.filterMap_nil]
    have hsettled := hs.settled hunserved
    rw [hexpected] at hsettled
    rw [htake, Web.receive] at hs' ⊢
    rcases hnext : (s.ui.receive r.request reply).2 with _ | q
    · simp only [hnext, Web.sendAny] at hs' ⊢
      exact .of_setUi hs' rfl hsettled
    · -- the commit that follows a validation
      obtain ⟨hui, hconnected, th, dialog, hq, rfl⟩ := s.ui.receive_next hnext
      rw [hq] at hfits
      have hsame : Web.setUi { s with inFlight := [] ++ [] } s.ui = { s with inFlight := [] } := by
        rw [Web.setUi, Ui.rendered_of_eq rfl]
        rfl
      simp only [hnext, hui, hsame, Web.sendAny, Web.send, hconnected, Bool.true_or, if_true]
        at hs' hsettled ⊢
      exact .of_send (s := { s with inFlight := [] }) rfl ⟨rfl, hfits⟩ hsettled hs'

/-- A request that has not been served fails, and is no edit. -/
theorem Kept.fail (hs : Kept ordered s)
    (hd : ∀ r ∈ s.inFlight[i]?, r.request.isEdit = false ∧ r.reply = none)
    (h : webMachine.step s (.fail i) = some s') (hs' : Accounted s') : Kept ordered s' := by
  obtain ⟨r, l, hr, hl, rfl⟩ := step_fail h
  obtain ⟨hedit, hreply⟩ := hd r hr
  obtain ⟨htake, rfl⟩ := hs.inFlight_of_mem hl hedit
  obtain ⟨hone, -⟩ := hs.accounted.control_of_mem hl hedit
  have hexpected : s.expected = s.ui := by
    rw [s.expected_of_singleton hone, Ui.arrive, hreply]
  have hunserved : unserved s.inFlight = [] := by
    rw [hl, htake, List.nil_append, unserved,
      List.filterMap_cons_none (Sent.unservedEdit_of_control hedit), List.filterMap_nil]
  have hsettled := hs.settled hunserved
  rw [hexpected] at hsettled
  obtain ⟨gotChanges, hrejected⟩ := s.ui.rejected_eq r.request
  rw [htake, hrejected] at hs' ⊢
  exact .of_setUi hs' rfl ⟨hsettled.alive, hsettled.made, hsettled.committed⟩

/-- Every step keeps the invariant. -/
theorem Kept.step (hs : Kept ordered s) {e : WebEvent ε} (hd : Patient ordered s e)
    (hstep : webMachine.step s e = some s') : Kept ordered s' := by
  have hs' := hs.accounted.step hd.alone hstep
  rcases e with c | ⟨i, d⟩ | i | i | sid
  · obtain ⟨henabled, rfl⟩ := step_click hstep
    rcases c with _ | _ | _ | _ | _ | _ | _ | e
    case edit => exact hs.edit hd henabled hs'
    all_goals exact hs.click hd henabled (fun e ↦ nofun) hs'
  · exact hs.serve hd hstep hs'
  · exact hs.receive hstep hs'
  · exact hs.fail hd hstep hs'
  · exact hd.elim

/-- **What is reported is stored.** The commits that ConfD has stored are those that the stores
report once the replies on their way are there, one by one and each with the edits that were made,
less those that ConfD refused. -/
theorem committed_as_reported (h : webMachine.Reach (Patient ordered) (webStart : Web ε) s) :
    List.Forall₂ (Stored ordered) s.server.committed s.expected.reported ∧
      (s.control = [] →
        List.Forall₂ (Stored ordered) s.server.committed s.ui.reported) := by
  have hs := h.invariant kept_webStart fun _ _ _ hs hd hstep ↦ hs.step hd hstep
  refine ⟨hs.committed, fun hnone ↦ ?_⟩
  rw [← s.expected_of_nil hnone]
  exact hs.committed

end Kept

/-! ## A run -/

/-- Two edits are served in the wrong order, one is refused, and then they are committed. -/
theorem committed_as_reported_two_edits :
    ∃ s, webMachine.Reach (Patient false) (webStart : Web ℕ) s ∧
      List.Forall₂ (Stored false) s.server.committed s.ui.reported ∧
      s.ui.reported = [(1, [5, 6])] ∧
      s.server.committed.map Trans.answers = [[(6, true), (5, false)]] := by
  have hrun : (((webMachine : Machine (Web ℕ) _).restrict (Patient false)).runFrom webStart
      (answered .login (granted 0) ++ answered (.newTransaction true .running) (granted 1) ++
        [.click (.edit 5), .click (.edit 6), .serve 1 (granted 0),
          .serve 0 { granted 0 with accepts := false }, .receive 1, .receive 0] ++
        answered .showChanges (granted 0) ++ answered .commit (granted 0) ++
        [.serve 0 (granted 0), .receive 0])).any
      (fun s ↦ s.control = [] ∧ s.ui.reported = [(1, [5, 6])] ∧
        s.server.committed.map Trans.answers = [[(6, true), (5, false)]]) = true := by decide
  obtain ⟨s, hs, htest⟩ := Machine.exists_reach_of_any hrun
  obtain ⟨hnone, hreported, hanswers⟩ := of_decide_eq_true htest
  exact ⟨s, hs, (committed_as_reported hs).2 hnone, hreported, hanswers⟩

end ConfdDemos.Webui
