import Mathlib.Data.List.Basic
import ConfdDemos.Webui.Session

/-!
# The transaction in the stores is the one that is open

A request opens or closes a transaction in ConfD when it is served, and in the stores when its reply
is there. In between the two differ. `Web.expected` are the stores as they will be then, and they
show what ConfD has open (`opened_eq_shown`), provided that one button at a time is pressed and that
no commit is refused.

Otherwise a transaction can get lost. It stays open in ConfD, while the stores show another one or
none. This is so after a second click on the button of a new transaction, and after a commit that
was refused, because the handler resets the stores all the same. With a second click on the button
of a commit the handler commits whatever transaction there is by then.

## The proof

`Accounted` is the invariant. While a request other than an edit is on its way, the stores keep what
its handler relies on (`Ui.Fits`), and serving it changes ConfD as the reply will change the stores
(`Server.serve_shown`).
-/

namespace ConfdDemos.Webui

variable {ε : Type*}

/-! ## What the stores show -/

/-- The transaction in the stores, as long as its session lives. -/
def Ui.shown (ui : Ui ε) (sessions : List ℕ) : List (ℕ × ℤ × Bool) :=
  match ui.cookie with
  | some sid =>
    if ui.transHandle ≠ -1 ∧ sid ∈ sessions then [(sid, ui.transHandle, ui.isWriteTrans)] else []
  | none => []

/-- The stores after a request, if its reply is on the way. -/
def Ui.arrive (ui : Ui ε) (r : Sent ε) : Ui ε :=
  match r.reply with
  | some reply => (ui.receive r.request reply).1
  | none => ui

/-- The requests on their way that are no edits. -/
def Web.control (s : Web ε) : List (Sent ε) := s.inFlight.filter fun r ↦ !r.request.isEdit

/-- The stores as they will be when the replies on their way are there. -/
def Web.expected (s : Web ε) : Ui ε := s.inFlight.foldl Ui.arrive s.ui

/-- No button but those of edits is pressed while the request of another one is on its way. A commit
is accepted. A reply gets lost at most from an edit. -/
def Alone (s : Web ε) : WebEvent ε → Prop
  | .click (.edit _) => True
  | .click _ => s.control = []
  | .serve i d => ∀ r ∈ s.inFlight[i]?, r.request.isCommit = true → d.accepts = true
  | .receive _ => True
  | .fail i => ∀ r ∈ s.inFlight[i]?, r.request.isEdit = true ∨ r.reply = none
  | .expire _ => True

instance (s : Web ε) (e : WebEvent ε) : Decidable (Alone s e) :=
  match e with
  | .click (.edit _) | .receive _ | .expire _ => inferInstanceAs (Decidable True)
  | .click .login | .click .logout | .click (.newTransaction ..) | .click .deleteTransaction
  | .click .showChanges | .click .closeChanges | .click .commit =>
    inferInstanceAs (Decidable (s.control = []))
  | .serve i d => inferInstanceAs
    (Decidable (∀ r ∈ s.inFlight[i]?, r.request.isCommit = true → d.accepts = true))
  | .fail i => inferInstanceAs
    (Decidable (∀ r ∈ s.inFlight[i]?, r.request.isEdit = true ∨ r.reply = none))

structure Ui.Sound (ui : Ui ε) : Prop where
  idle : ui.connected = false → ui.transHandle = -1
  write : ui.isWriteTrans = true → ui.transHandle ≠ -1

/-- What a handler relies on while its request is on its way. -/
def Ui.Fits (ui : Ui ε) : Request ε → Prop
  | .login => ui.connected = false
  | .logout => True
  | .newTrans .. => ui.connected = true ∧ ui.transHandle = -1
  | .deleteTrans th => th = ui.transHandle ∧ ui.transHandle ≠ -1
  | .getTransChanges _ => True
  | .validateCommit _ dialog => dialog = ui.dialog ∧ ui.mounted = true
  | .commit th dialog => th = ui.transHandle ∧ dialog = ui.dialog ∧ ui.mounted = true
  | .edit .. => False

section Shown

variable {ui ui' : Ui ε} {v v' : Server ε} {sessions : List ℕ} {sid : ℕ} {q : Request ε}
  {reply : Reply} {d : Decision} {x : Server ε × Reply}

theorem Ui.shown_eq_nil (h : ui.transHandle = -1) : ui.shown sessions = [] := by
  rw [shown]
  split
  · exact if_neg fun hc ↦ hc.1 h
  · rfl

theorem Ui.shown_eq_nil_of_dead (h : ∀ sid, ui.cookie = some sid → sid ∉ sessions) :
    ui.shown sessions = [] := by
  rw [shown]
  split
  next sid hsid => exact if_neg fun hc ↦ h sid hsid hc.2
  next => rfl

theorem Ui.shown_eq_singleton (hcookie : ui.cookie = some sid) (hsid : sid ∈ sessions)
    (hth : ui.transHandle ≠ -1) :
    ui.shown sessions = [(sid, ui.transHandle, ui.isWriteTrans)] := by
  rw [shown, hcookie]
  exact if_pos ⟨hth, hsid⟩

theorem Ui.Sound.of_mounted (hui : ui.Sound) (h : ui.mounted = true) :
    ui.isWriteTrans = true ∧ ui.transHandle ≠ -1 := by
  rw [mounted, Bool.and_assoc, Bool.and_eq_true] at h
  exact ⟨h.1, hui.write h.1⟩

theorem Server.opened_eq_nil : v.opened = [] ↔ v.trans = [] := List.map_eq_nil_iff

/-! ## Serving a request -/

theorem Server.inSession_cases {cookie : Option ℕ} {f : ℕ → Option (Server ε × Reply)}
    (h : v.inSession cookie f = some x) :
    (∃ sid, cookie = some sid ∧ sid ∈ v.sessions ∧ f sid = some x) ∨
      (∀ sid, cookie = some sid → sid ∉ v.sessions) ∧ x = (v, .error false) := by
  rcases cookie with _ | sid
  · exact .inr ⟨fun sid hsid ↦ (nomatch hsid), (Option.some_inj.mp h).symm⟩
  · rw [inSession] at h
    split_ifs at h with hsid
    · exact .inl ⟨sid, rfl, hsid, h⟩
    · exact .inr ⟨fun _ heq ↦ Option.some_inj.mp heq ▸ hsid, (Option.some_inj.mp h).symm⟩

theorem Server.inTrans_cases {cookie : Option ℕ} {th : ℤ} {f : Trans ε → Server ε × Reply}
    (h : v.inTrans cookie th f = some x) : (∃ t, x = f t) ∨ x = (v, .error false) := by
  rcases inSession_cases h with ⟨sid, -, -, hx⟩ | ⟨-, hx⟩
  · split at hx
    · exact .inl ⟨_, (Option.some_inj.mp hx).symm⟩
    · exact .inr (Option.some_inj.mp hx).symm
  · exact .inr hx

/-- A request that changes no transaction. -/
theorem Server.inTrans_fst {cookie : Option ℕ} {th : ℤ} {f : Trans ε → Server ε × Reply}
    (h : v.inTrans cookie th f = some x) (hf : ∀ t, (f t).1 = v) : x.1 = v := by
  rcases inTrans_cases h with ⟨t, rfl⟩ | rfl
  · exact hf t
  · rfl

/-- The transaction of a request is the one in the stores, and the only one. -/
theorem Server.inTrans_shown {f : Trans ε → Server ε × Reply}
    (hagree : v.opened = ui.shown v.sessions) (hth : ui.transHandle ≠ -1)
    (h : v.inTrans ui.cookie ui.transHandle f = some x) :
    (∃ t, v.trans = [t] ∧ ui.cookie = some t.session ∧ t.session ∈ v.sessions ∧
        t.th = ui.transHandle ∧ t.isWrite = ui.isWriteTrans ∧ x = f t) ∨
      (∀ sid, ui.cookie = some sid → sid ∉ v.sessions) ∧ x = (v, .error false) := by
  rcases inSession_cases h with ⟨sid, hcookie, hsid, hx⟩ | hdead
  · refine .inl ?_
    rw [ui.shown_eq_singleton hcookie hsid hth, opened, List.map_eq_singleton_iff] at hagree
    obtain ⟨t, ht, hname⟩ := hagree
    rw [Trans.name, Prod.mk.injEq, Prod.mk.injEq] at hname
    obtain ⟨hsession, hhandle, hwrite⟩ := hname
    have hfind : v.find sid ui.transHandle = some t := by
      rw [find, ht, List.find?_cons_of_pos]
      rw [hsession, hhandle, beq_self_eq_true, beq_self_eq_true, Bool.and_self]
    rw [hfind] at hx
    exact ⟨t, ht, hsession ▸ hcookie, hsession ▸ hsid, hhandle, hwrite,
      (Option.some_inj.mp hx).symm⟩
  · exact .inr hdead

theorem Server.trans_close {t : Trans ε} (ht : v.trans = [t]) : (v.close t).trans = [] := by
  rw [close, ht, List.filter_cons_of_neg, List.filter_nil]
  rw [beq_self_eq_true, beq_self_eq_true, Bool.and_self]
  decide

theorem Server.opened_answer (t : Trans ε) (e : ε) (accepted : Bool) :
    (v.answer t e accepted).opened = v.opened := by
  rw [opened, opened, answer, List.map_map]
  refine List.map_congr_left fun u _ ↦ ?_
  rw [Function.comp_apply]
  split_ifs
  · rfl
  · rfl

/-- An edit opens and closes nothing. -/
theorem Server.serve_edit {cookie : Option ℕ} {th : ℤ} {e : ε}
    (h : v.serve cookie d (.edit th e) = some (v', reply)) :
    v'.opened = v.opened ∧ v'.sessions = v.sessions := by
  rcases inTrans_cases h with ⟨t, hx⟩ | hx
  · obtain ⟨rfl, -⟩ := Prod.mk.inj hx
    exact ⟨opened_answer .., rfl⟩
  · obtain ⟨rfl, -⟩ := Prod.mk.inj hx
    exact ⟨rfl, rfl⟩

/-- The transaction that a request closes is the one in the stores. -/
theorem Server.close_shown {f : Trans ε → Server ε × Reply}
    (hagree : v.opened = ui.shown v.sessions) (hth : ui.transHandle ≠ -1)
    (h : v.inTrans ui.cookie ui.transHandle f = some x)
    (hf : ∀ t, v.trans = [t] → t.isWrite = ui.isWriteTrans → (f t).1.trans = []) :
    x.1.opened = [] := by
  rcases inTrans_shown hagree hth h with ⟨t, ht, -, -, -, hwrite, rfl⟩ | ⟨hdead, rfl⟩
  · exact opened_eq_nil.mpr (hf t ht hwrite)
  · exact hagree.trans (ui.shown_eq_nil_of_dead hdead)

theorem Ui.Sound.resetTransaction (ui : Ui ε) : ui.resetTransaction.Sound :=
  ⟨fun _ ↦ rfl, fun h ↦ (Bool.false_ne_true h).elim⟩

/-- **Serving a request.** ConfD then has open what the stores will show with the reply. -/
theorem Server.serve_shown (hagree : v.opened = ui.shown v.sessions) (hui : ui.Sound)
    (hfits : ui.Fits q) (hd : q.isCommit = true → d.accepts = true)
    (h : v.serve ui.cookie d q = some (v', reply)) :
    v'.opened = (ui.receive q reply).1.shown v'.sessions ∧ (ui.receive q reply).1.Sound := by
  rcases q with _ | _ | ⟨isWrite, targetDb⟩ | th | th | ⟨th, dialog⟩ | ⟨th, dialog⟩ | ⟨th, e⟩
  · -- `login`
    have hnone := hui.idle hfits
    have htrans : v.opened = [] := hagree.trans (ui.shown_eq_nil hnone)
    have hx := Option.some_inj.mp h
    split_ifs at hx
    · obtain ⟨rfl, rfl⟩ := Prod.mk.inj hx
      refine ⟨htrans.trans (Eq.symm ?_), fun _ ↦ hnone, hui.write⟩
      exact Ui.shown_eq_nil hnone
    · obtain ⟨rfl, rfl⟩ := Prod.mk.inj hx
      exact ⟨hagree, hui⟩
  · -- `logout`
    refine ⟨?_, fun _ ↦ rfl, fun hw ↦ (Bool.false_ne_true hw).elim⟩
    refine Eq.trans ?_ (Ui.shown_eq_nil rfl).symm
    rcases inSession_cases h with ⟨sid, hcookie, hsid, hx⟩ | ⟨hdead, hx⟩
    · obtain ⟨rfl, rfl⟩ := Prod.mk.inj (Option.some_inj.mp hx)
      refine opened_eq_nil.mpr (List.filter_eq_nil_iff.mpr fun t ht ↦ ?_)
      have hname : t.name ∈ ui.shown v.sessions := hagree ▸ List.mem_map_of_mem ht
      by_cases hth : ui.transHandle = -1
      · rw [ui.shown_eq_nil hth] at hname
        exact absurd hname List.not_mem_nil
      · rw [ui.shown_eq_singleton hcookie hsid hth, List.mem_singleton] at hname
        have hsession : t.session = sid := congrArg Prod.fst hname
        simp [hsession]
    · obtain ⟨rfl, rfl⟩ := Prod.mk.inj hx
      exact hagree.trans (ui.shown_eq_nil_of_dead hdead)
  · -- `newTrans`
    obtain ⟨hconnected, hth⟩ := hfits
    rcases inSession_cases h with ⟨sid, hcookie, hsid, hx⟩ | ⟨-, hx⟩
    · split_ifs at hx with haccepts hnew
      · obtain ⟨rfl, rfl⟩ := Prod.mk.inj (Option.some_inj.mp hx)
        exact ⟨hagree, hui⟩
      · obtain ⟨rfl, rfl⟩ := Prod.mk.inj (Option.some_inj.mp hx)
        refine ⟨?_, fun hc ↦ absurd (hconnected.symm.trans hc) (by decide), fun _ ↦ hnew.1⟩
        have hshown : (ui.newPendingTransaction d.th isWrite).shown v.sessions =
            [(sid, d.th, isWrite)] := Ui.shown_eq_singleton hcookie hsid hnew.1
        refine Eq.trans ?_ hshown.symm
        rw [opened, opened_eq_nil.mp (hagree.trans (ui.shown_eq_nil hth))]
        rfl
    · obtain ⟨rfl, rfl⟩ := Prod.mk.inj hx
      exact ⟨hagree, hui⟩
  · -- `deleteTrans`
    obtain ⟨rfl, hth⟩ := hfits
    refine ⟨?_, .resetTransaction ui⟩
    exact (close_shown hagree hth h fun t ht _ ↦ trans_close ht).trans (Ui.shown_eq_nil rfl).symm
  · -- `getTransChanges`
    obtain rfl : v' = v := inTrans_fst h fun _ ↦ rfl
    exact ⟨hagree, hui.idle, hui.write⟩
  · -- `validateCommit`
    obtain rfl : v' = v := inTrans_fst h fun _ ↦ rfl
    exact ⟨hagree, hui⟩
  · -- `commit`
    obtain ⟨rfl, rfl, hmounted⟩ := hfits
    obtain ⟨hwrite, hth⟩ := hui.of_mounted hmounted
    have hreceive : (ui.receive (.commit ui.transHandle ui.dialog) reply).1 = ui.doCommit :=
      if_pos rfl
    rw [hreceive]
    refine ⟨?_, fun _ ↦ rfl, fun hw ↦ (Bool.false_ne_true hw).elim⟩
    refine (close_shown hagree hth h fun t ht htw ↦ ?_).trans (Ui.shown_eq_nil rfl).symm
    rw [hd rfl, htw, hwrite]
    exact trans_close ht
  · exact hfits.elim

end Shown

/-! ## Steps -/

section Step

variable {s s' : Web ε} {ui ui' : Ui ε} {r : Sent ε} {i : ℕ} {d : Decision} {q q' : Request ε}
  {reply : Reply} {c : Click ε} {e : ε} {sid : ℕ}

theorem exists_split {α : Type*} {l : List α} {a : α} (h : l[i]? = some a) :
    ∃ l₂, l = l.take i ++ a :: l₂ ∧ l.eraseIdx i = l.take i ++ l₂ ∧
      ∀ b, l.set i b = l.take i ++ b :: l₂ := by
  obtain ⟨hlt, rfl⟩ := List.getElem?_eq_some_iff.mp h
  refine ⟨l.drop (i + 1), ?_, List.eraseIdx_eq_take_drop_succ .., fun b ↦ ?_⟩
  · rw [← List.drop_eq_getElem_cons hlt, List.take_append_drop]
  · rw [List.set_eq_take_append_cons_drop, if_pos hlt]

theorem step_serve (h : webMachine.step s (.serve i d) = some s') :
    ∃ r l x, s.inFlight[i]? = some r ∧ s.inFlight = s.inFlight.take i ++ r :: l ∧
      r.reply = none ∧ s.server.serve r.cookie d r.request = some x ∧
      s' = { s with server := x.1
                    inFlight := s.inFlight.take i ++ { r with reply := some x.2 } :: l } := by
  obtain ⟨r, hr, h⟩ := Option.bind_eq_some_iff.mp h
  split_ifs at h with hreply
  obtain ⟨x, hx, rfl⟩ := Option.map_eq_some_iff.mp h
  obtain ⟨l, hl, -, hset⟩ := exists_split hr
  refine ⟨r, l, x, hr, hl, Option.not_isSome_iff_eq_none.mp hreply, hx, ?_⟩
  rw [hset]

theorem step_receive (h : webMachine.step s (.receive i) = some s') :
    ∃ r l reply, s.inFlight[i]? = some r ∧ s.inFlight = s.inFlight.take i ++ r :: l ∧
      r.reply = some reply ∧
      s' = { s with inFlight := s.inFlight.take i ++ l }.receive r reply := by
  obtain ⟨r, hr, h⟩ := Option.bind_eq_some_iff.mp h
  obtain ⟨reply, hreply, rfl⟩ := Option.map_eq_some_iff.mp h
  obtain ⟨l, hl, herase, -⟩ := exists_split hr
  refine ⟨r, l, reply, hr, hl, hreply, ?_⟩
  rw [herase]

theorem step_fail (h : webMachine.step s (.fail i) = some s') :
    ∃ r l, s.inFlight[i]? = some r ∧ s.inFlight = s.inFlight.take i ++ r :: l ∧
      s' = { s with inFlight := s.inFlight.take i ++ l }.setUi (s.ui.rejected r.request) := by
  obtain ⟨r, hr, rfl⟩ := Option.map_eq_some_iff.mp h
  obtain ⟨l, hl, herase, -⟩ := exists_split hr
  refine ⟨r, l, hr, hl, ?_⟩
  rw [herase]

theorem step_click (h : webMachine.step s (.click c) = some s') :
    s.ui.enabled c = true ∧ s' = s.click c :=
  ⟨(Option.ite_none_right_eq_some.mp h).1,
    (Option.some_inj.mp (Option.ite_none_right_eq_some.mp h).2).symm⟩

theorem Ui.rendered_of_eq (h : ui'.mounted = ui.mounted) : ui.rendered ui' = ui' := by
  rw [rendered, h]
  split_ifs with hc
  · simp at hc
  · rfl

theorem Ui.shown_rendered (ui ui' : Ui ε) (sessions : List ℕ) :
    (ui.rendered ui').shown sessions = ui'.shown sessions := by
  rw [rendered]
  split_ifs
  · rfl
  · rfl

theorem Ui.Sound.rendered (h : ui'.Sound) (ui : Ui ε) : (ui.rendered ui').Sound := by
  rw [Ui.rendered]
  split_ifs
  · exact ⟨h.idle, h.write⟩
  · exact h

/-- Only the validation of a commit goes on with a request. -/
theorem Ui.receive_next (h : (ui.receive q reply).2 = some q') :
    (ui.receive q reply).1 = ui ∧ ui.connected = true ∧
      ∃ th dialog, q = .validateCommit th dialog ∧ q' = .commit ui.transHandle dialog := by
  rcases q with _ | _ | ⟨isWrite, targetDb⟩ | th | th | ⟨th, dialog⟩ | ⟨th, dialog⟩ | ⟨th, e⟩
  · rcases reply with _ | _ | _ | _ | _ <;> exact nomatch h
  · exact nomatch h
  · rcases reply with _ | _ | _ | _ | _ <;> exact nomatch h
  · exact nomatch h
  · exact nomatch h
  · rw [receive] at h
    simp only at h
    split_ifs at h with hgo
    rw [Bool.or_eq_true, not_or, Bool.not_eq_true', Bool.not_eq_false] at hgo
    exact ⟨rfl, hgo.2, th, dialog, rfl, (Option.some_inj.mp h).symm⟩
  · exact nomatch h
  · exact nomatch h

theorem Ui.rejected_eq (ui : Ui ε) (q : Request ε) :
    ∃ gotChanges, ui.rejected q = { ui with gotChanges := gotChanges } := by
  rcases q with _ | _ | _ | _ | _ | _ | _ | _
  all_goals exact ⟨_, rfl⟩

/-- An edit changes nothing in the stores but what was made. -/
theorem Web.click_edit (hui : s.ui.Sound) (h : s.ui.enabled (.edit e) = true) :
    s.click (.edit e) =
      { s with ui := { s.ui with made := s.ui.made ++ [e] }
               inFlight := s.inFlight ++ [⟨s.ui.cookie, .edit s.ui.transHandle e, none⟩] } := by
  rw [Ui.enabled, Bool.and_eq_true] at h
  have hconnected : s.ui.connected = true :=
    (Bool.eq_false_or_eq_true _).resolve_right fun hc ↦ hui.write h.2 (hui.idle hc)
  have hrendered : s.ui.rendered (s.ui.clicked (.edit e)) = s.ui.clicked (.edit e) :=
    Ui.rendered_of_eq rfl
  rw [click, setUi, hrendered, Ui.request, sendAny, send]
  exact if_pos (Bool.or_eq_true_iff.mpr (.inl hconnected))

/-- Any other button sends a request whose handler can rely on the stores, or closes the dialog. -/
theorem Web.click_control (hui : s.ui.Sound) (h : s.ui.enabled c = true)
    (hc : ∀ e, c ≠ .edit e) :
    (∃ q, s.click c = { s with inFlight := s.inFlight ++ [⟨s.ui.cookie, q, none⟩] } ∧
        s.ui.Fits q) ∨
      s.click c = s.setUi { s.ui with changesDialog := false } := by
  have hconnected (hw : s.ui.isWriteTrans = true) : s.ui.connected = true :=
    (Bool.eq_false_or_eq_true _).resolve_right fun hc ↦ hui.write hw (hui.idle hc)
  have hsend (q : Request ε) (hclicked : s.ui.clicked c = s.ui) (hq : s.ui.request c = some q)
      (hcan : s.ui.connected = true ∨ q.isLogin = true) :
      s.click c = { s with inFlight := s.inFlight ++ [⟨s.ui.cookie, q, none⟩] } := by
    rw [click, hclicked, setUi, Ui.rendered_of_eq rfl, hq, sendAny, send]
    exact if_pos (Bool.or_eq_true_iff.mpr hcan)
  rcases c with _ | _ | ⟨wantWriteTrans, targetDb⟩ | _ | _ | _ | _ | e
  · exact .inl ⟨.login, hsend _ rfl rfl (.inr rfl), by simpa [Ui.enabled, Ui.Fits] using h⟩
  · exact .inl ⟨.logout, hsend _ rfl rfl (.inl h), trivial⟩
  · simp only [Ui.enabled, Ui.hasTrans, Bool.and_eq_true, Bool.not_eq_true', bne_eq_false_iff_eq]
      at h
    exact .inl ⟨_, hsend _ rfl rfl (.inl h.1), h⟩
  · simp only [Ui.enabled, Ui.hasTrans, Bool.and_eq_true, bne_iff_ne] at h
    exact .inl ⟨_, hsend _ rfl rfl (.inl h.1), rfl, h.2⟩
  · exact .inl ⟨_, hsend _ rfl rfl (.inl (hconnected h)), trivial⟩
  · exact .inr rfl
  · exact .inl ⟨_, hsend _ rfl rfl (.inl (hconnected (hui.of_mounted h).1)), rfl, h⟩
  · exact absurd rfl (hc e)

end Step

/-! ## The transaction of the stores is the one that is open -/

structure Accounted (s : Web ε) : Prop where
  agree : s.server.opened = s.expected.shown s.server.sessions
  ui : s.ui.Sound
  expected : s.expected.Sound
  control : s.control = [] ∨
    ∃ r, s.control = [r] ∧ r.cookie = s.ui.cookie ∧ s.ui.Fits r.request

section Accounted

variable {s s' : Web ε} {ui : Ui ε} {r : Sent ε} {l l' : List (Sent ε)} {i : ℕ} {d : Decision}
  {c : Click ε} {sid : ℕ}

theorem Ui.arrive_of_isEdit (h : r.request.isEdit = true) : ui.arrive r = ui := by
  rcases r with ⟨cookie, q, reply⟩
  rcases q with _ | _ | _ | _ | _ | _ | _ | _
  all_goals first | exact (Bool.false_ne_true h).elim | skip
  rcases reply with _ | _
  · rfl
  · rfl

theorem Ui.arrive_made (ui : Ui ε) (made : List ε) (r : Sent ε) : ∃ made' reported,
    Ui.arrive { ui with made := made } r =
      { ui.arrive r with made := made', reported := reported } := by
  obtain ⟨cookie, q, reply⟩ := r
  rcases reply with _ | reply
  · exact ⟨_, _, rfl⟩
  rcases q with _ | _ | _ | _ | _ | _ | ⟨th, dialog⟩ | _
  case login => rcases reply with _ | _ | _ | _ | _ <;> exact ⟨_, _, rfl⟩
  case newTrans => rcases reply with _ | _ | _ | _ | _ <;> exact ⟨_, _, rfl⟩
  case commit =>
    simp only [arrive, receive]
    split_ifs
    · exact ⟨_, _, rfl⟩
    · exact ⟨_, _, rfl⟩
  all_goals exact ⟨_, _, rfl⟩

theorem Ui.fits_made (ui : Ui ε) (made : List ε) (q : Request ε) :
    Ui.Fits { ui with made := made } q ↔ ui.Fits q := by
  rcases q with _ | _ | _ | _ | _ | _ | _ | _
  all_goals exact Iff.rfl

theorem foldl_arrive (l : List (Sent ε)) (ui : Ui ε) :
    l.foldl Ui.arrive ui = (l.filter fun r ↦ !r.request.isEdit).foldl Ui.arrive ui := by
  induction l generalizing ui with
  | nil => rfl
  | cons r l ih =>
    rw [List.foldl_cons, ih, List.filter_cons]
    split_ifs with hedit
    · rfl
    · rw [Bool.not_eq_true', Bool.not_eq_false] at hedit
      rw [Ui.arrive_of_isEdit hedit]

theorem Web.expected_of_nil (h : s.control = []) : s.expected = s.ui := by
  rw [expected, foldl_arrive]
  exact congrArg (List.foldl Ui.arrive s.ui) h

theorem Web.expected_of_singleton (h : s.control = [r]) : s.expected = s.ui.arrive r := by
  rw [expected, foldl_arrive]
  exact congrArg (List.foldl Ui.arrive s.ui) h

/-- An edit on its way is none of the other requests. -/
theorem Web.control_of_isEdit (h : s.inFlight = l ++ r :: l') (hr : r.request.isEdit = true) :
    s.control = (l ++ l').filter fun r ↦ !r.request.isEdit := by
  rw [control, h, List.filter_append, List.filter_append, List.filter_cons_of_neg]
  simpa using hr

/-- A request that is no edit is the only one. -/
theorem Accounted.control_of_mem (hs : Accounted s) (h : s.inFlight = l ++ r :: l')
    (hr : r.request.isEdit = false) :
    s.control = [r] ∧ ((l ++ l').filter fun r ↦ !r.request.isEdit) = [] ∧
      r.cookie = s.ui.cookie ∧ s.ui.Fits r.request := by
  have hcontrol : s.control = (l.filter fun r ↦ !r.request.isEdit) ++
      r :: l'.filter fun r ↦ !r.request.isEdit := by
    rw [Web.control, h, List.filter_append, List.filter_cons_of_pos]
    simpa using hr
  rcases hs.control with hnil | ⟨r', hone, hcookie, hfits⟩
  · rw [hcontrol] at hnil
    exact absurd hnil (by simp)
  · rw [hcontrol, List.append_eq_singleton_iff] at hone
    rcases hone with ⟨hl, hr'⟩ | ⟨-, hr'⟩
    · obtain ⟨rfl, hl'⟩ := List.cons.inj hr'
      refine ⟨by rw [hcontrol, hl, hl', List.nil_append], ?_, hcookie, hfits⟩
      rw [List.filter_append, hl, hl', List.nil_append]
    · exact absurd hr' (List.cons_ne_nil _ _)

/-- What the edits do is not seen. -/
theorem Accounted.of_edit (hs : Accounted s) (made : List ε)
    (hui : s'.ui = { s.ui with made := made }) (hcontrol : s'.control = s.control)
    (hopened : s'.server.opened = s.server.opened)
    (hsessions : s'.server.sessions = s.server.sessions) : Accounted s' := by
  have hmounted : s'.ui.mounted = s.ui.mounted := by rw [hui]; rfl
  have hsound : s'.ui.Sound := by rw [hui]; exact ⟨hs.ui.idle, hs.ui.write⟩
  rcases hs.control with hnil | ⟨r, hone, hcookie, hfits⟩
  · have hexpected := s.expected_of_nil hnil
    have hexpected' := s'.expected_of_nil (hcontrol.trans hnil)
    refine ⟨?_, hsound, hexpected' ▸ hsound, .inl (hcontrol.trans hnil)⟩
    rw [hopened, hsessions, hs.agree, hexpected, hexpected', hui]
    rfl
  · have hexpected := s.expected_of_singleton hone
    have hexpected' := s'.expected_of_singleton (hcontrol.trans hone)
    obtain ⟨made', reported, harrive⟩ := s.ui.arrive_made made r
    rw [hui, harrive, ← hexpected] at hexpected'
    refine ⟨?_, hsound, ?_, .inr ⟨r, hcontrol.trans hone, ?_, ?_⟩⟩
    · rw [hopened, hsessions, hs.agree, hexpected']
      rfl
    · rw [hexpected']
      exact ⟨hs.expected.idle, hs.expected.write⟩
    · rw [hui, hcookie]
    · rw [hui]
      exact (s.ui.fits_made made r.request).mpr hfits

/-- The stores change while nothing but edits is on its way. -/
theorem Accounted.of_setUi (hnone : s.control = [])
    (hagree : s.server.opened = ui.shown s.server.sessions) (hui : ui.Sound) :
    Accounted (s.setUi ui) := by
  have hsound : (s.setUi ui).ui.Sound := hui.rendered s.ui
  have hexpected : (s.setUi ui).expected = (s.setUi ui).ui := Web.expected_of_nil hnone
  refine ⟨?_, hsound, hexpected ▸ hsound, .inl hnone⟩
  rw [hexpected]
  exact hagree.trans (Ui.shown_rendered s.ui ui _).symm

/-- A button other than those of edits. -/
theorem Accounted.click (hs : Accounted s) (hnone : s.control = [])
    (henabled : s.ui.enabled c = true) (hc : ∀ e, c ≠ .edit e) : Accounted (s.click c) := by
  have hexpected := s.expected_of_nil hnone
  have hagree := hs.agree
  rw [hexpected] at hagree
  rcases Web.click_control hs.ui henabled hc with ⟨q, hq, hfits⟩ | hq
  · have hcontrol : (s.click c).control = [⟨s.ui.cookie, q, none⟩] := by
      rw [hq, Web.control, List.filter_append, List.filter_cons_of_pos]
      · exact congrArg (· ++ _) hnone
      · rcases q with _ | _ | _ | _ | _ | _ | _ | _
        all_goals first | rfl | exact hfits.elim
    have hexpected' := (s.click c).expected_of_singleton hcontrol
    rw [hq] at hcontrol hexpected' ⊢
    refine ⟨?_, hs.ui, ?_, .inr ⟨_, hcontrol, rfl, hfits⟩⟩
    · rw [hexpected']
      exact hagree
    · rw [hexpected']
      exact hs.ui
  · rw [hq]
    exact .of_setUi hnone hagree ⟨hs.ui.idle, hs.ui.write⟩

/-- ConfD serves a request. -/
theorem Accounted.serve (hs : Accounted s)
    (hd : ∀ r ∈ s.inFlight[i]?, r.request.isCommit = true → d.accepts = true)
    (h : webMachine.step s (.serve i d) = some s') : Accounted s' := by
  obtain ⟨r, l, ⟨v, reply⟩, hr, hl, hnone, hserve, rfl⟩ := step_serve h
  rcases Bool.eq_false_or_eq_true r.request.isEdit with hedit | hedit
  · -- an edit
    obtain ⟨cookie, q, reply₀⟩ := r
    rcases q with _ | _ | _ | _ | _ | _ | _ | ⟨th, e⟩
    all_goals first | exact (Bool.false_ne_true hedit).elim | skip
    obtain ⟨hopened, hsessions⟩ := Server.serve_edit hserve
    refine hs.of_edit s.ui.made rfl ?_ hopened hsessions
    rw [Web.control_of_isEdit hl rfl]
    exact Web.control_of_isEdit rfl rfl
  · obtain ⟨hone, hrest, hcookie, hfits⟩ := hs.control_of_mem hl hedit
    have hexpected : s.expected = s.ui := by
      rw [s.expected_of_singleton hone, Ui.arrive, hnone]
    have hagree := hs.agree
    rw [hexpected] at hagree
    rw [hcookie] at hserve
    obtain ⟨hshown, hsound⟩ := Server.serve_shown hagree hs.ui hfits (hd r hr) hserve
    rw [List.filter_append, List.append_eq_nil_iff] at hrest
    have hcontrol : Web.control { s with server := v
                                         inFlight := s.inFlight.take i ++
                                           { r with reply := some reply } :: l } =
        [{ r with reply := some reply }] := by
      rw [Web.control, List.filter_append, hrest.1, List.filter_cons_of_pos, hrest.2,
        List.nil_append]
      rw [hedit]
      rfl
    have hexpected' := Web.expected_of_singleton hcontrol
    refine ⟨?_, hs.ui, ?_, .inr ⟨_, hcontrol, hcookie, hfits⟩⟩
    · rw [hexpected']
      exact hshown
    · rw [hexpected']
      exact hsound

/-- The handler of a request goes on. -/
theorem Accounted.receive (hs : Accounted s) (h : webMachine.step s (.receive i) = some s') :
    Accounted s' := by
  obtain ⟨r, l, reply, -, hl, hreply, rfl⟩ := step_receive h
  rcases Bool.eq_false_or_eq_true r.request.isEdit with hedit | hedit
  · -- an edit
    obtain ⟨cookie, q, reply₀⟩ := r
    rcases q with _ | _ | _ | _ | _ | _ | _ | ⟨th, e⟩
    all_goals first | exact (Bool.false_ne_true hedit).elim | skip
    exact hs.of_edit s.ui.made (Ui.rendered_of_eq rfl) (Web.control_of_isEdit hl rfl).symm rfl rfl
  · obtain ⟨hone, hrest, hcookie, hfits⟩ := hs.control_of_mem hl hedit
    have hexpected : s.expected = (s.ui.receive r.request reply).1 := by
      rw [s.expected_of_singleton hone, Ui.arrive, hreply]
    have hagree := hs.agree
    have hsound := hs.expected
    rw [hexpected] at hagree hsound
    rw [Web.receive]
    rcases hnext : (s.ui.receive r.request reply).2 with _ | q
    · rw [Web.sendAny]
      exact .of_setUi hrest hagree hsound
    · -- the commit that follows a validation
      obtain ⟨hui, hconnected, th, dialog, hq, rfl⟩ := s.ui.receive_next hnext
      rw [hui] at hagree ⊢
      rw [hq] at hfits
      have hsame : Web.setUi { s with inFlight := s.inFlight.take i ++ l } s.ui =
          { s with inFlight := s.inFlight.take i ++ l } := by
        rw [Web.setUi, Ui.rendered_of_eq rfl]
      rw [hsame, Web.sendAny, Web.send, if_pos (Bool.or_eq_true_iff.mpr (.inl hconnected))]
      have hcontrol : Web.control { s with
          inFlight := s.inFlight.take i ++ l ++
            [⟨s.ui.cookie, .commit s.ui.transHandle dialog, none⟩] } =
          [⟨s.ui.cookie, .commit s.ui.transHandle dialog, none⟩] := by
        rw [Web.control, List.filter_append, hrest]
        rfl
      have hexpected' := Web.expected_of_singleton hcontrol
      refine ⟨?_, hs.ui, ?_, .inr ⟨_, hcontrol, rfl, rfl, hfits⟩⟩
      · rw [hexpected']
        exact hagree
      · rw [hexpected']
        exact hs.ui

/-- A request that has not been served fails, or an edit. -/
theorem Accounted.fail (hs : Accounted s)
    (hd : ∀ r ∈ s.inFlight[i]?, r.request.isEdit = true ∨ r.reply = none)
    (h : webMachine.step s (.fail i) = some s') : Accounted s' := by
  obtain ⟨r, l, hr, hl, rfl⟩ := step_fail h
  rcases Bool.eq_false_or_eq_true r.request.isEdit with hedit | hedit
  · -- an edit
    obtain ⟨cookie, q, reply₀⟩ := r
    rcases q with _ | _ | _ | _ | _ | _ | _ | ⟨th, e⟩
    all_goals first | exact (Bool.false_ne_true hedit).elim | skip
    exact hs.of_edit s.ui.made (Ui.rendered_of_eq rfl) (Web.control_of_isEdit hl rfl).symm rfl rfl
  · obtain ⟨hone, hrest, -, -⟩ := hs.control_of_mem hl hedit
    have hreply : r.reply = none := (hd r hr).resolve_left (by rw [hedit]; decide)
    have hexpected : s.expected = s.ui := by
      rw [s.expected_of_singleton hone, Ui.arrive, hreply]
    have hagree := hs.agree
    rw [hexpected] at hagree
    obtain ⟨gotChanges, hrejected⟩ := s.ui.rejected_eq r.request
    rw [hrejected]
    exact .of_setUi hrest hagree ⟨hs.ui.idle, hs.ui.write⟩

/-- A session that ends takes its transactions out of both. -/
theorem Accounted.expire (hs : Accounted s) (sid : ℕ) :
    Accounted { s with server := s.server.endSession sid } := by
  refine ⟨?_, hs.ui, hs.expected, hs.control⟩
  have hopened : (s.server.endSession sid).opened =
      s.server.opened.filter fun x ↦ x.1 != sid := by
    rw [Server.opened, Server.opened, List.filter_map]
    rfl
  refine hopened.trans ?_
  rw [hs.agree]
  change _ = s.expected.shown (s.server.sessions.filter fun x ↦ x != sid)
  rw [Ui.shown, Ui.shown]
  split
  next sid' hsid' =>
    by_cases hc : s.expected.transHandle ≠ -1 ∧ sid' ∈ s.server.sessions
    · rw [if_pos hc]
      by_cases hne : sid' = sid
      · rw [if_neg fun hc' ↦ by simp [hne] at hc', List.filter_cons_of_neg (by simp [hne])]
        rfl
      · rw [if_pos ⟨hc.1, List.mem_filter.mpr ⟨hc.2, by simpa using hne⟩⟩,
          List.filter_cons_of_pos (by simpa using hne)]
        rfl
    · rw [if_neg hc, if_neg fun hc' ↦ hc ⟨hc'.1, (List.mem_filter.mp hc'.2).1⟩]
      rfl
  next => rfl

theorem accounted_webStart : Accounted (webStart : Web ε) where
  agree := rfl
  ui := ⟨fun _ ↦ rfl, fun h ↦ (Bool.false_ne_true h).elim⟩
  expected := ⟨fun _ ↦ rfl, fun h ↦ (Bool.false_ne_true h).elim⟩
  control := .inl rfl

/-- Every step keeps the invariant. -/
theorem Accounted.step (hs : Accounted s) {e : WebEvent ε} (hd : Alone s e)
    (hstep : webMachine.step s e = some s') : Accounted s' := by
  rcases e with c | ⟨i, d⟩ | i | i | sid
  · obtain ⟨henabled, rfl⟩ := step_click hstep
    rcases c with _ | _ | _ | _ | _ | _ | _ | e
    case edit =>
      rw [Web.click_edit hs.ui henabled]
      refine hs.of_edit _ rfl ?_ rfl rfl
      rw [Web.control, List.filter_append]
      exact List.append_nil _
    all_goals exact hs.click hd henabled fun e ↦ nofun
  · exact hs.serve hd hstep
  · exact hs.receive hstep
  · exact hs.fail hd hstep
  · obtain rfl := Option.some_inj.mp hstep
    exact hs.expire sid

/-- **No transaction is lost.** The transactions that are open are what the stores show once the
replies on their way are there, and what they show now when only edits are on their way. -/
theorem opened_eq_shown (h : webMachine.Reach Alone (webStart : Web ε) s) :
    s.server.opened = s.expected.shown s.server.sessions ∧
      (s.control = [] → s.server.opened = s.ui.shown s.server.sessions) := by
  have hs := h.invariant accounted_webStart fun _ _ _ hs hd hstep ↦ hs.step hd hstep
  exact ⟨hs.agree, fun hnone ↦ by rw [hs.agree, s.expected_of_nil hnone]⟩

end Accounted

/-! ## Two runs -/

/-- What ConfD decides when there is nothing to be said against a request. -/
def granted (th : ℤ) : Decision := { accepts := true, errors := false, th := th, changes := true }

/-- A request whose reply comes at once. -/
def answered (c : Click ε) (d : Decision) : List (WebEvent ε) := [.click c, .serve 0 d, .receive 0]

/-- The reply of a new transaction is on its way while nothing shows it. -/
theorem opened_eq_shown_new :
    ∃ s, webMachine.Reach Alone (webStart : Web ℕ) s ∧ s.ui.transHandle = -1 ∧
      s.server.opened = s.expected.shown s.server.sessions ∧
      s.server.opened = [(0, 1, true)] := by
  have hrun : (((webMachine : Machine (Web ℕ) _).restrict Alone).runFrom webStart
      (answered .login (granted 0) ++
        [.click (.newTransaction true .running), .serve 0 (granted 1)])).any
      (fun s ↦ s.ui.transHandle = -1 ∧ s.server.opened = [(0, 1, true)]) = true := by decide
  obtain ⟨s, hs, htest⟩ := Machine.exists_reach_of_any hrun
  obtain ⟨hth, hopened⟩ := of_decide_eq_true htest
  exact ⟨s, hs, hth, (opened_eq_shown hs).1, hopened⟩

/-- A second click on the button of a commit, whose handler finds another transaction in the stores
by the time it goes on, commits that one. -/
example : ∃ s, webMachine.Reachable (webStart : Web ℕ) s ∧ s.ui.reported.length = 1 ∧
    s.server.committed.map (fun t ↦ (t.th, t.answers)) = [(1, []), (2, [(7, true)])] := by
  have hrun : (((webMachine : Machine (Web ℕ) _).restrict fun _ _ ↦ True).runFrom webStart
      (answered .login (granted 0) ++ answered (.newTransaction true .running) (granted 1) ++
        answered .showChanges (granted 0) ++
        [.click .commit, .click .commit, .serve 0 (granted 0), .serve 1 (granted 0), .receive 0,
          .serve 1 (granted 0), .receive 1, .click (.newTransaction true .running),
          .serve 1 (granted 2), .receive 1, .click (.edit 7), .serve 1 (granted 0), .receive 1,
          .receive 0, .serve 0 (granted 0), .receive 0])).any
      (fun s ↦ s.ui.reported.length = 1 ∧ s.server.committed.map (fun t ↦ (t.th, t.answers)) =
        [(1, []), (2, [(7, true)])]) = true := by decide
  obtain ⟨s, hs, htest⟩ := Machine.exists_reach_of_any hrun
  exact ⟨s, hs, of_decide_eq_true htest⟩

end ConfdDemos.Webui
