import Aimsgui.Lib.Echo
import Aimsgui.Placing
import Aimsgui.Stacks

/-!
# Repacks that answer repacks

`pack_windows` tells every client the new place of its windows. A client made with `tkclient`
passes such a message back as a request of its own, and where the row has got another size in
the meantime the request packs again. `Echoing` is the manager together with the messages its
clients have not handled yet; `answer` is what comes of the next one of a client, where a
client that has read a message and waits for its request counts as one that has not read it.

The messages are kept as what they say; `answer_mail` and `handlerequest_reshapeMsg` tie them
to the texts that are sent and to the requests that come back. A tag is read only as far as
its first NUL, so that a window `".\x00a"` sends messages about the row `"."`.

The echoes die out if nothing on its way changes a row, or if no window passes for a row and
the rows and the messages on their way are calm; where no window does, only then
(`repacking_settles`).
-/

namespace Aimsgui

open Transition Wm

/-! ## Messages -/

/-- A control message on its way to a client. -/
inductive Message where
  /-- `"!reshape " tag " -1 " rect` -/
  | reshape (tag : String) (r : Rect)
  | other (e : String)
  deriving DecidableEq, Repr

namespace Message

/-- What is sent. -/
def text : Message → String
  | reshape tag r => reshapeMsg tag r
  | other e => e

/-- The size that the message has for the client's row, which is the window with the tag that
the client reads. -/
def row : Message → Option Point
  | reshape tag r => if cstring tag = "." then some r.extent else none
  | other _ => none

end Message

namespace Tkclient

/-- The messages that `tkclient.wmctl` does not pass back as they are. -/
def handled : List String := ["exit", "move", "size", "ok", "help", "rect", "haskbdfocus", "task"]

/-- Whether `tkclient.wmctl` makes a control message a request. -/
def passes (e : String) : Bool := (unquoted e).headD "" ∉ handled

end Tkclient

namespace Wm

/-- The control message that is sent, if it is for the client `c`. -/
def mailed (c : Cid) : Send → Option String
  | .ctl a e => if a = c then some e else none
  | _ => none

/-- The control messages that have been sent to a client. -/
def mail (w : Wm) (c : Cid) : List String := w.out.filterMap (mailed c)

/-- What `pack_windows` has sent about some windows of a client, whose tags end at a NUL. -/
def posted (screen : Rect) (wins : List Window) : List Message :=
  wins.flatMap fun win => [.reshape (cstring win.tag) win.r, .other ("rect " ++ r2s screen)]

/-- What `pack_windows` has sent a client. -/
def posts (w : Wm) (c : Cid) : List Message :=
  if c ∈ w.order then posted w.screen (w.client c).wins else []

end Wm

/-- Only the row's tag reads as the row's does, as far as its first NUL. -/
def Client.Legible (wins : List Window) : Prop :=
  ∀ t ∈ wins.map Window.tag, cstring t = "." → t = "."

/-- A window manager, and the control messages that its clients have not handled yet. -/
structure Echoing where
  session : Session
  inbox : Cid → List Message

namespace Echoing

/-- The client `c` handles its next message: it passes it back if it says where a window is,
and the manager handles that request. -/
def answer (env : Env) (e : Echoing) (c : Cid) : Option Echoing :=
  if e.session.Live c then
    match e.inbox c with
    | [] => none
    | .other _ :: ms => some { e with inbox := Function.update e.inbox c ms }
    | .reshape tag r :: ms =>
      let w := (reshape .rowwm env e.session.wm c (cstring tag) r).1
      let sent := match reshapePacking env e.session.wm c (cstring tag) r with
        | some _ => w.posts
        | none => fun _ => []
      some ⟨{ e.session with wm := w }, fun a => Function.update e.inbox c ms a ++ sent a⟩
  else none

/-- A client handles a message. -/
def Answered (env : Env) (e e' : Echoing) : Prop := ∃ c, e.answer env c = some e'

/-- Every execution in which the clients do nothing but handle their messages is finite,
whatever the environment answers. -/
def Settles (e : Echoing) : Prop := ∀ env, ¬ Diverges (Answered env) e

/-- The size of each client's row, and the sizes on their way to it. -/
def view (e : Echoing) (c : Cid) : Echo.Party Point :=
  if e.session.Live c then ⟨e.session.wm.rowsize c, (e.inbox c).filterMap Message.row⟩
  else ⟨none, []⟩

/-- Everything on its way to a row has the row's height; or only one row is about to get
another size, and everything on its way to it from that on has one height. -/
def Calm (e : Echoing) : Prop := Echo.Calm Point.y e.view

/-- Nothing on its way to a row changes it. -/
def Settled (e : Echoing) : Prop := ∀ c, (e.view c).Settled

/-- No window passes for its client's row in a message. -/
def Legible (e : Echoing) : Prop :=
  ∀ c, e.session.Live c → Client.Legible (e.session.wm.client c).wins

/-- No more than one repack is to come, or all those to come are about one height. -/
def Quiet (e : Echoing) : Prop := e.Settled ∨ e.Legible ∧ e.Calm

end Echoing

/-! ## What is sent is what is recorded -/

namespace Wm

variable {env : Env} {w w' : Wm} {c a : Cid} {tag : String} {left : List Cid} {r newr : Rect}

/-- What a client is told about its windows are the messages about them. -/
theorem tidings_eq (screen : Rect) (c : Cid) (wins : List Window) :
    tidings screen c wins = (posted screen wins).map fun m => .ctl c m.text := by
  simp only [tidings, posted, List.map_flatMap, List.map_cons, List.map_nil, Message.text,
    reshapeMsg_cstring]

/-- What is sent later stands later in the mail. -/
theorem mail_append {l : List Send} (h : w'.out = w.out ++ l) (a : Cid) :
    w'.mail a = w.mail a ++ l.filterMap (mailed a) := by
  rw [mail, h, List.filterMap_append, mail]

/-- Tidings are for one client. -/
theorem filterMap_tidings (screen : Rect) (c a : Cid) (wins : List Window) :
    (tidings screen c wins).filterMap (mailed a) =
      if c = a then (posted screen wins).map Message.text else [] := by
  rw [tidings_eq, List.filterMap_map]
  split_ifs with h
  · rw [← List.filterMap_eq_map]
    refine List.filterMap_congr ?_
    intro m _
    exact if_pos h
  · rw [List.filterMap_eq_nil_iff]
    intro m _
    exact if_neg h

/-- Of what is sent to different clients each gets its own part. -/
theorem filterMap_flatMap_tidings (screen : Rect) (wins : Cid → List Window) {cs : List Cid}
    (hcs : cs.Nodup) (a : Cid) :
    (cs.flatMap fun c => tidings screen c (wins c)).filterMap (mailed a) =
      if a ∈ cs then (posted screen (wins a)).map Message.text else [] := by
  induction cs with
  | nil => rfl
  | cons c cs ih =>
    obtain ⟨hc, hcs⟩ := List.nodup_cons.mp hcs
    rw [List.flatMap_cons, List.filterMap_append, filterMap_tidings, ih hcs]
    by_cases hca : c = a
    · subst hca
      rw [if_pos rfl, if_neg hc, if_pos List.mem_cons_self, List.append_nil]
    · rw [if_neg hca, List.nil_append]
      simp only [List.mem_cons, Ne.symm hca, false_or]

/-- `pack_windows` tells every client on the screen where its windows are. -/
theorem packWindows_mail (h : Sound w left) (env : Env) (a : Cid) :
    (w.packWindows env w.screen).mail a =
      w.mail a ++ ((w.packWindows env w.screen).posts a).map Message.text := by
  obtain ⟨l, hl, -⟩ := h.zorder
  obtain ⟨-, -, -, hout⟩ := packWindows_spec env hl w.screen
  have hnd : (w.packWindows env w.screen).order.Nodup := by
    rw [packWindows_order]
    exact nodup_packed hl
  rw [mail_append hout, filterMap_flatMap_tidings w.screen _ hnd a, posts, packWindows_screen]
  split_ifs <;> rfl

/-- The image and the origin are not sent as messages on `ctl`. -/
theorem reshapeImage_mail (env : Env) (w : Wm) (c : Cid) (tag : String) (r : Rect) (a : Cid) :
    (w.reshapeImage env c tag r).1.mail a = w.mail a := by
  have hplacing : Placing (fun _ => False) c w (w.reshapeImage env c tag r).1 :=
    Placing.reshapeImage tag r
  obtain ⟨l, hout, hsent⟩ := hplacing.sent
  have hnone : l.filterMap (mailed a) = [] := by
    rw [List.filterMap_eq_nil_iff]
    intro x hx
    cases hsent x hx with
    | reshape hfalse => exact hfalse.elim
    | rect hfalse => exact hfalse.elim
    | image | ptr | origin | wmctl | fakekbd => rfl
  rw [mail_append hout, hnone, List.append_nil]

theorem enlist_mail (w : Wm) (c a : Cid) : (w.enlist c).mail a = w.mail a := by
  rw [enlist]
  split_ifs <;> rfl

/-! ## What a reshape packs -/

/-- A reshape packs where a row gets another size, after the client is on the screen. -/
theorem reshapePacking_cases (h : reshapePacking env w c tag r = some w') :
    tag = "." ∧ ¬ w.Samesize c tag r ∧ (w.reshapeImage env c tag r).2 = none ∧
      w' = (w.reshapeImage env c tag r).1.enlist c := by
  rw [reshapePacking] at h
  split at h
  · cases h
  · rename_i w₁ heq
    split_ifs at h with hcond
    refine ⟨hcond.2, hcond.1, congrArg Prod.snd heq, ?_⟩
    rw [heq]
    exact (Option.some.inj h).symm

/-- A reshape that does not pack, as far as the clients' records go. -/
theorem reshape_client_of_unpacked (h : reshapePacking env w c tag r = none) :
    (reshape .rowwm env w c tag r).1.client = (w.reshapeImage env c tag r).1.client := by
  rcases reshape_unpacked h with ⟨e, herr⟩ | ⟨-, -, heq⟩
  · rw [herr]
  · rw [heq, enlist_client]

/-- A reshape that does not repack sends nothing on `ctl`. -/
theorem reshape_mail_of_unpacked (h : reshapePacking env w c tag r = none) (a : Cid) :
    (reshape .rowwm env w c tag r).1.mail a = w.mail a := by
  rw [← reshapeImage_mail env w c tag r a]
  rcases reshape_unpacked h with ⟨e, herr⟩ | ⟨-, -, heq⟩
  · rw [herr]
  · rw [heq, enlist_mail]

/-- Where a reshape packs, the records are well formed before it does. -/
theorem reshapePacking_sound (h : Sound w left) (hc : c < w.z.refs) (hleft : c ∉ left)
    (hpack : reshapePacking env w c tag r = some w') :
    Sound w' left ∧ ∀ a, a ∈ w'.order ↔ a ∈ w.order ∨ a = c := by
  obtain ⟨-, -, -, rfl⟩ := reshapePacking_cases hpack
  have hz := (reshapeImage_frame env w c tag r).1
  obtain ⟨hsound, hmem⟩ := (h.reshapeImage env c tag r).enlist
    (hz.symm ▸ hc) hleft
  refine ⟨hsound, ?_⟩
  intro a
  rw [hmem, Wm.order, hz, Wm.order]

theorem Sound.reshape (h : Sound w left) (hc : c < w.z.refs) (hleft : c ∉ left) :
    Sound (reshape .rowwm env w c tag r).1 left := by
  have himage := h.reshapeImage env c tag r
  have hz := (reshapeImage_frame env w c tag r).1
  cases hpack : reshapePacking env w c tag r with
  | none =>
    rcases reshape_unpacked hpack with ⟨e, herr⟩ | ⟨-, -, heq⟩
    · rw [herr] at himage
      exact himage
    · rw [heq]
      exact (himage.enlist (hz.symm ▸ hc) hleft).1
  | some w₂ =>
    rw [reshape_packed hpack]
    exact (reshapePacking_sound h hc hleft hpack).1.packWindows _

theorem Displayed.reshape (hacc : ∀ n, env.accepts n = true) (h : Displayed w left)
    (hc : c < w.z.refs) (hleft : c ∉ left) :
    Displayed (reshape .rowwm env w c tag r).1 left := by
  have hframe := (reshapeImage_frame env w c tag r).1
  have henlist : Displayed ((w.reshapeImage env c tag r).1.enlist c) left := by
    refine Displayed.enlist ?_ (proper_reshapeImage h.proper) ?_ (hframe.symm ▸ hc) hleft
    · rw [hframe]
      exact h.zorder
    · intro a ha hm hleft
      rw [reshapeImage_others env w c tag r ha]
      rw [Wm.order, hframe] at hm
      exact h.hidden a hm hleft
  cases hpack : reshapePacking env w c tag r with
  | none =>
    rcases reshape_unpacked hpack with ⟨e, herr⟩ | ⟨-, -, heq⟩
    · have hclient := reshapeImage_refused hacc herr
      rw [herr] at hframe
      exact h.frame hframe fun a => congrArg (fun f => (f a).wins) hclient
    · rw [heq]
      exact henlist
  | some w₂ =>
    obtain ⟨-, -, -, rfl⟩ := reshapePacking_cases hpack
    rw [reshape_packed hpack]
    exact henlist.packWindows _

/-! ## The request that comes back -/

/-- The request that comes back is about the same place, where that is in the range of `int`,
and about the window whose tag the client reads. -/
theorem handlerequest_reshapeMsg (hmin : Isint r.min.x ∧ Isint r.min.y)
    (hmax : Isint r.max.x ∧ Isint r.max.y) (ptr : List Pointer) :
    w.handlerequest .rowwm env c (reshapeMsg tag r) ptr =
      some (reshape .rowwm env w c (cstring tag) r) := by
  rw [handlerequest_cons (unquoted_reshapeMsg tag r), if_neg (by simp), if_neg (by decide)]
  simp only [plainRequest, reshapeRequest, placement, int_toString hmin.1, int_toString hmin.2,
    int_toString hmax.1, int_toString hmax.2]

/-! ## Windows that pass for a row -/

theorem Legible.updatewin {f : Window → Window} {wins : List Window} (h : Client.Legible wins)
    (hf : ∀ win, (f win).tag = win.tag) : Client.Legible (Client.updatewin tag f wins) := by
  rw [Client.Legible, Client.map_tag_updatewin hf]
  exact h

/-- A client stays legible if the tag of the request is not cut down to the row's. -/
theorem legible_reshapeImage (h : Client.Legible (w.client a).wins)
    (htag : cstring tag = "." → tag = ".") :
    Client.Legible ((w.reshapeImage env c tag r).1.client a).wins := by
  by_cases ha : a = c
  · subst ha
    rcases reshapeImage_wins env w a tag r with hw | ⟨win, -, i, -, hw⟩ | ⟨id, hw⟩
    · rw [hw]
      exact h
    · rw [hw]
      exact Legible.updatewin h fun _ => rfl
    · rw [hw, Client.putimage]
      split
      · intro t ht
        rcases List.mem_cons.mp ht with rfl | ht
        · exact htag
        · exact h t ht
      · exact Legible.updatewin h fun _ => rfl
  · rw [reshapeImage_others env w c tag r ha]
    exact h

/-- Packing leaves the tags alone. -/
theorem legible_packWindows (h : Client.Legible (w.client a).wins) :
    Client.Legible ((w.packWindows env newr).client a).wins := by
  refine replaceAll_wins (P := Client.Legible) ?_ _ _ _ a ?_
  · intro c w s wins hwins
    rw [Client.Legible, map_tag_replaceWins]
    exact hwins
  · rw [client_packed]
    exact h

end Wm

namespace Echoing

variable {env : Env} {e e' : Echoing} {c a : Cid} {left : List Cid}

/-! ## What handling a message does -/

/-- A client handles a message that is about no window, or one that is. -/
theorem answer_cases (h : e.answer env c = some e') : e.session.Live c ∧
    ((∃ t ms, e.inbox c = .other t :: ms ∧
        e' = { e with inbox := Function.update e.inbox c ms }) ∨
      ∃ tag r ms, e.inbox c = .reshape tag r :: ms ∧
        e'.session =
          { e.session with wm := (reshape .rowwm env e.session.wm c (cstring tag) r).1 } ∧
        (reshapePacking env e.session.wm c (cstring tag) r = none ∧
            e'.inbox = Function.update e.inbox c ms ∨
          ∃ w₂, reshapePacking env e.session.wm c (cstring tag) r = some w₂ ∧
            ∀ a, e'.inbox a = Function.update e.inbox c ms a ++ e'.session.wm.posts a)) := by
  rw [answer] at h
  split_ifs at h with hc
  refine ⟨hc, ?_⟩
  split at h
  · cases h
  · rename_i t ms hinbox
    exact Or.inl ⟨t, ms, hinbox, (Option.some.inj h).symm⟩
  · rename_i tag r ms hinbox
    obtain rfl := Option.some.inj h
    refine Or.inr ⟨tag, r, ms, hinbox, rfl, ?_⟩
    cases hpack : reshapePacking env e.session.wm c (cstring tag) r with
    | none =>
      refine Or.inl ⟨rfl, ?_⟩
      funext a
      exact List.append_nil _
    | some w₂ => exact Or.inr ⟨w₂, rfl, fun _ => rfl⟩

/-- What is added to the clients' messages is what the manager has sent. -/
theorem answer_mail (hs : Sound e.session.wm e.session.left) (h : e.answer env c = some e')
    (a : Cid) : ∃ sent : List Message,
      e'.session.wm.mail a = e.session.wm.mail a ++ sent.map Message.text ∧
      e'.inbox a = (if a = c then (e.inbox c).tail else e.inbox a) ++ sent := by
  have htail : ∀ {m : Message} {ms : List Message}, e.inbox c = m :: ms →
      Function.update e.inbox c ms a = if a = c then (e.inbox c).tail else e.inbox a := by
    intro m ms hinbox
    rw [Function.update_apply, hinbox, List.tail_cons]
  obtain ⟨hc, ⟨t, ms, hinbox, rfl⟩ | ⟨tag, r, ms, hinbox, hsession, hsent⟩⟩ := answer_cases h
  · refine ⟨[], (List.append_nil _).symm, ?_⟩
    rw [List.append_nil, ← htail hinbox]
  · rw [hsession] at hsent ⊢
    rcases hsent with ⟨hpack, heq⟩ | ⟨w₂, hpack, heq⟩
    · refine ⟨[], ?_, ?_⟩
      · rw [List.map_nil, List.append_nil]
        exact reshape_mail_of_unpacked hpack a
      · rw [heq, List.append_nil, htail hinbox]
    · refine ⟨_, ?_, (heq a).trans (congrArg (· ++ _) (htail hinbox))⟩
      have hsound := (reshapePacking_sound hs hc.1 hc.2 hpack).1
      obtain ⟨-, -, -, hw₂⟩ := reshapePacking_cases hpack
      have hmail : w₂.mail a = e.session.wm.mail a := by
        rw [hw₂, enlist_mail, reshapeImage_mail]
      have hposts := packWindows_mail hsound env a
      rw [hmail] at hposts
      rw [reshape_packed hpack]
      exact hposts

/-! ## What the rows see of it -/

theorem live_congr (hrefs : e'.session.wm.z.refs = e.session.wm.z.refs)
    (hleft : e'.session.left = e.session.left) (a : Cid) :
    e'.session.Live a ↔ e.session.Live a := by
  rw [Session.Live, Session.Live, hrefs, hleft]

/-- A reshape makes no records and forgets nobody. -/
theorem answer_frame (h : e.answer env c = some e') :
    e'.session.wm.z.refs = e.session.wm.z.refs ∧ e'.session.left = e.session.left ∧
      e'.session.wm.screen = e.session.wm.screen := by
  obtain ⟨hc, ⟨t, ms, hinbox, rfl⟩ | ⟨tag, r, ms, hinbox, hsession, -⟩⟩ := answer_cases h
  · exact ⟨rfl, rfl, rfl⟩
  · rw [hsession]
    have hplacing : Placing (fun _ => True) c e.session.wm
        (reshape .rowwm env e.session.wm c (cstring tag) r).1 :=
      Placing.reshape fun _ _ _ => trivial
    refine ⟨hplacing.refs, rfl, ?_⟩
    have hscreen := (reshapeImage_frame env e.session.wm c (cstring tag) r).2
    cases hpack : reshapePacking env e.session.wm c (cstring tag) r with
    | none =>
      rcases reshape_unpacked hpack with ⟨err, herr⟩ | ⟨-, -, heq⟩
      · rw [herr] at hscreen
        exact hscreen
      · rw [heq, enlist_screen, hscreen]
    | some w₂ =>
      obtain ⟨-, -, -, rfl⟩ := reshapePacking_cases hpack
      rw [reshape_packed hpack, packWindows_screen, enlist_screen, hscreen]

/-- A live client and the sizes that are on their way to its row. -/
theorem view_of_live (hc : e.session.Live c) :
    e.view c = ⟨e.session.wm.rowsize c, (e.inbox c).filterMap Message.row⟩ := if_pos hc

theorem filterMap_row_cons {tag : String} (hdot : cstring tag = ".") (r : Rect)
    (ms : List Message) :
    (Message.reshape tag r :: ms).filterMap Message.row =
      r.extent :: ms.filterMap Message.row := by
  have hrow : (Message.reshape tag r).row = some r.extent := if_pos hdot
  exact List.filterMap_cons_some hrow

/-- A message of one client has been taken off, and only that client's row may be another. -/
theorem view_update (h : e.answer env c = some e') {ms : List Message}
    (hinbox : e'.inbox = Function.update e.inbox c ms)
    (hrow : ∀ a, a ≠ c → e'.session.wm.rowsize a = e.session.wm.rowsize a) :
    e'.view = Function.update e.view c
      ⟨e'.session.wm.rowsize c, ms.filterMap Message.row⟩ := by
  obtain ⟨hrefs, hleft, -⟩ := answer_frame h
  have hlive := live_congr hrefs hleft
  funext a
  by_cases ha : a = c
  · subst ha
    rw [view_of_live ((hlive a).mpr (answer_cases h).1), Function.update_self, hinbox,
      Function.update_self]
  · rw [Function.update_of_ne ha, view, view, hrow a ha, hinbox, Function.update_of_ne ha]
    simp only [hlive]

/-- What `pack_windows` sends says what size the row has, if no other window passes for it. -/
theorem filterMap_posts {w : Wm} (h : Sound w left) (hleg : Client.Legible (w.client a).wins)
    (ha : a ∈ w.order) : (w.posts a).filterMap Message.row = (w.rowsize a).toList := by
  have hrows : ∀ wins : List Window, Client.Legible wins →
      (posted w.screen wins).filterMap Message.row = (rowsOf wins).map Rect.extent := by
    intro wins hwins
    induction wins with
    | nil => rfl
    | cons win wins ih =>
      rw [rowsOf_cons, List.map_append, ← ih fun t ht => hwins t (List.mem_cons_of_mem _ ht),
        posted, List.flatMap_cons, List.filterMap_append]
      refine congrArg (· ++ _) ?_
      by_cases hdot : win.tag = "."
      · have hread : cstring "." = "." := by decide
        simp [Message.row, hdot, hread]
      · have hread : cstring win.tag ≠ "." := fun heq => hdot (hwins _ List.mem_cons_self heq)
        simp [Message.row, hdot, hread]
  rw [posts, if_pos ha, hrows _ hleg, Client.rowsOf_wins (h.proper a), rowsize]
  cases (w.client a).window "." <;> rfl

/-- The normal form of a size: the screen's width. -/
def across (screen : Rect) (h : Int) : Point := ⟨screen.extent.x, h⟩

/-- A message that is about no row is taken off, and nothing else is seen of it. -/
theorem view_eq_of_update (h : e.answer env c = some e') {m : Message} {ms : List Message}
    (hm : e.inbox c = m :: ms) (hnone : m.row = none)
    (hinbox : e'.inbox = Function.update e.inbox c ms)
    (hrow : ∀ a, e'.session.wm.rowsize a = e.session.wm.rowsize a) : e'.view = e.view := by
  have hc := view_of_live (answer_cases h).1
  rw [hm, List.filterMap_cons_none hnone] at hc
  rw [view_update h hinbox fun a _ => hrow a, hrow c, ← hc, Function.update_eq_self]

/-- A message about a row that makes nobody pack. -/
theorem takes_of_unpacked (hs : Sound e.session.wm e.session.left) (h : e.answer env c = some e')
    {tag : String} {r : Rect} {ms : List Message} (hm : e.inbox c = .reshape tag r :: ms)
    (hdot : cstring tag = ".")
    (hsession : e'.session = { e.session with wm := (reshape .rowwm env e.session.wm c "." r).1 })
    (hpack : reshapePacking env e.session.wm c "." r = none)
    (hinbox : e'.inbox = Function.update e.inbox c ms) : Echo.Takes e.view c e'.view := by
  have hclient := reshape_client_of_unpacked hpack
  have hrows : ∀ a, e'.session.wm.rowsize a =
      (e.session.wm.reshapeImage env c "." r).1.rowsize a := fun a => by
    rw [hsession]
    exact rowsize_congr (congrFun hclient a)
  have hothers : ∀ a, a ≠ c → e'.session.wm.rowsize a = e.session.wm.rowsize a := fun a ha =>
    (hrows a).trans (rowsize_reshapeImage_of_ne (Or.inl ha))
  have hflying : (e.view c).flying = r.extent :: ms.filterMap Message.row := by
    rw [view_of_live (answer_cases h).1, hm]
    exact filterMap_row_cons hdot r ms
  have hcur : (e.view c).cur = e.session.wm.rowsize c := by
    rw [view_of_live (answer_cases h).1]
  rw [view_update h hinbox hothers, hrows c]
  rcases rowsize_reshapeImage hs env c r with hsame | hnew
  · rw [hsame, ← hcur]
    exact .kept hflying
  · rw [hnew]
    exact .shown hflying

/-- A message about a row that makes the manager pack: every row on the screen is told its
size, across the screen. -/
theorem spreads_of_packed (hs : Sound e.session.wm e.session.left) (hleg : e.Legible)
    (h : e.answer env c = some e') {tag : String} {r : Rect} {ms : List Message} {w₂ : Wm}
    (hm : e.inbox c = .reshape tag r :: ms)
    (hsession : e'.session =
      { e.session with wm := (reshape .rowwm env e.session.wm c (cstring tag) r).1 })
    (hpack : reshapePacking env e.session.wm c (cstring tag) r = some w₂)
    (hinbox : ∀ a, e'.inbox a = Function.update e.inbox c ms a ++ e'.session.wm.posts a) :
    Echo.Spreads Point.y (across e.session.wm.screen) e.view c (· ∈ w₂.order) e'.view := by
  have hlive := (answer_cases h).1
  obtain ⟨hrefs, hleft, -⟩ := answer_frame h
  have hlives := live_congr hrefs hleft
  obtain ⟨hsound, hmem⟩ := reshapePacking_sound hs hlive.1 hlive.2 hpack
  obtain ⟨hdot, hsize, hok, hw₂⟩ := reshapePacking_cases hpack
  rw [hdot] at hsize hok hw₂ hsession hpack
  have hwm : e'.session.wm = w₂.packWindows env w₂.screen := by
    rw [hsession]
    exact reshape_packed hpack
  have hscreen : w₂.screen = e.session.wm.screen := by
    rw [hw₂, enlist_screen]
    exact (reshapeImage_frame env e.session.wm c "." r).2
  have hrow₂ : ∀ a, w₂.rowsize a = (e.session.wm.reshapeImage env c "." r).1.rowsize a := fun a => by
    rw [hw₂]
    exact rowsize_congr (congrFun (enlist_client _ _) a)
  -- the row of the client that has asked gets its size first, then all rows get the width
  have hrowc : w₂.rowsize c = some r.extent :=
    (hrow₂ c).trans (rowsize_reshapeImage_of_not_samesize hsize hok)
  have hrowa : ∀ a, a ≠ c → w₂.rowsize a = e.session.wm.rowsize a := fun a ha =>
    (hrow₂ a).trans (rowsize_reshapeImage_of_ne (Or.inl ha))
  have hrows : ∀ a, e'.session.wm.rowsize a = if a ∈ w₂.order then
      (w₂.rowsize a).map fun s => ⟨w₂.screen.extent.x, s.y⟩ else w₂.rowsize a := fun a => by
    rw [hwm]
    exact rowsize_packWindows hsound _ a
  have hlive₂ : ∀ a, a ∈ w₂.order → e'.session.Live a := by
    intro a ha
    have hsound' : Sound (w₂.packWindows env w₂.screen) e.session.left := hsound.packWindows _
    have hlive' := hsound'.live ((order_packWindows hsound _ a).mpr ha)
    rw [← hwm] at hlive'
    exact ⟨hlive'.1, hleft.symm ▸ hlive'.2⟩
  -- each client on the screen is told the size that its row has now
  have hposts : ∀ a, a ∈ w₂.order →
      (e'.session.wm.posts a).filterMap Message.row = (e'.session.wm.rowsize a).toList := by
    intro a ha
    rw [hwm]
    refine filterMap_posts (hsound.packWindows _) (legible_packWindows ?_)
      ((order_packWindows hsound _ a).mpr ha)
    rw [hw₂, enlist_client]
    exact legible_reshapeImage (hleg a ((hlives a).mp (hlive₂ a ha))) fun _ => rfl
  have hc : c ∈ w₂.order := (hmem c).mpr (Or.inr rfl)
  refine ⟨r.extent, ms.filterMap Message.row, ?_, ?_, hc, ?_, ?_⟩
  · rw [view_of_live hlive, hm]
    exact filterMap_row_cons hdot r ms
  · rw [view_of_live hlive]
    exact fun heq => hsize (samesize_iff.mpr heq)
  · intro a ha
    have hlivea := hlive₂ a ha
    rw [view_of_live hlivea, hinbox, List.filterMap_append, hposts a ha, hrows a, if_pos ha]
    by_cases hac : a = c
    · subst hac
      rw [Function.update_self, Function.update_self, hrowc, hscreen]
      rfl
    · rw [Function.update_of_ne hac, Function.update_of_ne hac, hrowa a hac,
        view_of_live ((hlives a).mp hlivea), hscreen]
      cases e.session.wm.rowsize a with
      | none => exact congrArg (Echo.Party.mk none) (List.append_nil _)
      | some x => rfl
  -- a client that is not on the screen is not told anything
  · intro a ha
    have hac : a ≠ c := fun heq => ha (heq ▸ hc)
    have hnone : e'.session.wm.posts a = [] := by
      rw [hwm, posts, if_neg ((order_packWindows hsound _ a).not.mpr ha)]
    rw [view, view, hinbox, hnone, List.append_nil, Function.update_of_ne hac, hrows a, if_neg ha,
      hrowa a hac]
    simp only [hlives]

/-- A message that makes nobody pack. -/
theorem view_of_unpacked (hs : Sound e.session.wm e.session.left) (h : e.answer env c = some e')
    {tag : String} {r : Rect} {ms : List Message} (hm : e.inbox c = .reshape tag r :: ms)
    (hsession : e'.session =
      { e.session with wm := (reshape .rowwm env e.session.wm c (cstring tag) r).1 })
    (hpack : reshapePacking env e.session.wm c (cstring tag) r = none)
    (hinbox : e'.inbox = Function.update e.inbox c ms) :
    e'.view = e.view ∨ Echo.Takes e.view c e'.view := by
  by_cases hdot : cstring tag = "."
  · rw [hdot] at hsession hpack
    exact Or.inr (takes_of_unpacked hs h hm hdot hsession hpack hinbox)
  · refine Or.inl (view_eq_of_update h hm (if_neg hdot) hinbox ?_)
    intro a
    rw [hsession]
    exact (rowsize_congr (congrFun (reshape_client_of_unpacked hpack) a)).trans
      (rowsize_reshapeImage_of_ne (Or.inr hdot))

/-- A message that changes no row makes nobody pack. -/
theorem unpacked_of_settled (hset : e.Settled) (hc : e.session.Live c) {tag : String} {r : Rect}
    {ms : List Message} (hm : e.inbox c = .reshape tag r :: ms) :
    reshapePacking env e.session.wm c (cstring tag) r = none := by
  rw [Option.eq_none_iff_forall_ne_some]
  intro w₂ hpack
  obtain ⟨hdot, hsize, -, -⟩ := reshapePacking_cases hpack
  have hflying : r.extent ∈ (e.view c).flying := by
    rw [view_of_live hc, hm, filterMap_row_cons hdot]
    exact List.mem_cons_self
  have hcur := hset c _ hflying
  rw [view_of_live hc] at hcur
  rw [hdot] at hsize
  exact hsize (samesize_iff.mpr hcur)

/-- What the rows see of a message that is handled: it is taken off, or, where no window passes
for a row, the rows are told of a change. -/
theorem view_answer (hs : Sound e.session.wm e.session.left) (hleg : e.Settled ∨ e.Legible)
    (h : e.answer env c = some e') :
    ((∀ a, e'.inbox a = Function.update e.inbox c (e.inbox c).tail a) ∧
        (e'.view = e.view ∨ Echo.Takes e.view c e'.view)) ∨
      e.Legible ∧
        ∃ listed, Echo.Spreads Point.y (across e.session.wm.screen) e.view c listed e'.view := by
  obtain ⟨hc, ⟨t, ms, hm, heq⟩ | ⟨tag, r, ms, hm, hsession, hsent⟩⟩ := answer_cases h
  · have hinbox : e'.inbox = Function.update e.inbox c ms := by rw [heq]
    have htail : (e.inbox c).tail = ms := by rw [hm, List.tail_cons]
    refine Or.inl ⟨fun a => by rw [hinbox, htail], Or.inl ?_⟩
    refine view_eq_of_update h hm rfl hinbox ?_
    intro a
    rw [heq]
  · rcases hsent with ⟨hpack, hinbox⟩ | ⟨w₂, hpack, hinbox⟩
    · have htail : (e.inbox c).tail = ms := by rw [hm, List.tail_cons]
      exact Or.inl ⟨fun a => by rw [hinbox, htail],
        view_of_unpacked hs h hm hsession hpack hinbox⟩
    · rcases hleg with hset | hleg
      · rw [unpacked_of_settled hset hc hm] at hpack
        cases hpack
      · exact Or.inr ⟨hleg, _, spreads_of_packed hs hleg h hm hsession hpack hinbox⟩

/-! ## Executions -/

theorem height_across (screen : Rect) (h : Int) : (across screen h).y = h := rfl

/-- The number of messages that the clients have not handled yet. -/
def pending (n : Nat) (e : Echoing) : Nat := ∑ c ∈ Finset.range n, (e.inbox c).length

/-- A manager with `n` records on that screen. -/
structure Sized (screen : Rect) (n : Nat) (e : Echoing) : Prop where
  sound : Sound e.session.wm e.session.left
  refs : e.session.wm.z.refs = n
  screen : e.session.wm.screen = screen
  legible : e.Settled ∨ e.Legible

/-- What a client passes back has no NUL in it. -/
theorem Legible.answer (hleg : e.Legible) (h : e.answer env c = some e') : e'.Legible := by
  obtain ⟨hrefs, hleft, -⟩ := answer_frame h
  intro a ha
  have hwins := hleg a ((live_congr hrefs hleft a).mp ha)
  obtain ⟨-, ⟨t, ms, hm, rfl⟩ | ⟨tag, r, ms, hm, hsession, -⟩⟩ := answer_cases h
  · exact hwins
  · have himage : Client.Legible
        ((e.session.wm.reshapeImage env c (cstring tag) r).1.client a).wins :=
      legible_reshapeImage hwins fun hread => (cstring_cstring tag).symm.trans hread
    rw [hsession]
    cases hpack : reshapePacking env e.session.wm c (cstring tag) r with
    | none =>
      change Client.Legible ((reshape .rowwm env e.session.wm c (cstring tag) r).1.client a).wins
      rw [reshape_client_of_unpacked hpack]
      exact himage
    | some w₂ =>
      change Client.Legible ((reshape .rowwm env e.session.wm c (cstring tag) r).1.client a).wins
      obtain ⟨-, -, -, hw₂⟩ := reshapePacking_cases hpack
      rw [reshape_packed hpack, hw₂]
      refine legible_packWindows ?_
      rw [enlist_client]
      exact himage

theorem Sized.answer {screen : Rect} {n : Nat} (hs : e.Sized screen n)
    (h : e.answer env c = some e') : e'.Sized screen n := by
  obtain ⟨hrefs, hleft, hscreen⟩ := answer_frame h
  refine ⟨?_, hrefs.trans hs.refs, hscreen.trans hs.screen, ?_⟩
  · obtain ⟨hc, ⟨t, ms, hm, rfl⟩ | ⟨tag, r, ms, hm, hsession, -⟩⟩ := answer_cases h
    · exact hs.sound
    · rw [hsession]
      exact hs.sound.reshape hc.1 hc.2
  · rcases view_answer hs.sound hs.legible h with ⟨-, hview⟩ | ⟨hleg, -⟩
    · refine hs.legible.imp ?_ fun hleg => hleg.answer h
      intro hset
      rcases hview with hview | hview
      · rw [Echoing.Settled, hview]
        exact hset
      · exact hview.settled hset
    · exact Or.inr (hleg.answer h)

/-- A message that is taken off is one less. -/
theorem pending_lt {n : Nat} (hc : c < n) {m : Message} {ms : List Message}
    (hm : e.inbox c = m :: ms)
    (hinbox : ∀ a, e'.inbox a = Function.update e.inbox c (e.inbox c).tail a) :
    e'.pending n < e.pending n := by
  refine Finset.sum_lt_sum ?_ ⟨c, Finset.mem_range.mpr hc, ?_⟩
  · intro a _
    rw [hinbox]
    by_cases ha : a = c
    · subst ha
      rw [Function.update_self, List.length_tail]
      exact Nat.sub_le _ _
    · rw [Function.update_of_ne ha]
  · rw [hinbox, Function.update_self, hm, List.tail_cons, List.length_cons]
    exact Nat.lt_succ_self _

/-- Handling messages is a system of echoes. -/
theorem echoes_answered (env : Env) (screen : Rect) (n : Nat) :
    Echo.Echoes Point.y (across screen) (Answered env) (Sized screen n) view (pending n)
      (Finset.range n) := by
  rintro e e' hs ⟨c, h⟩
  refine ⟨hs.answer h, ?_⟩
  have hlive := (answer_cases h).1
  have hc : c < n := hs.refs ▸ hlive.1
  rcases view_answer hs.sound hs.legible h with ⟨hinbox, hview⟩ | ⟨-, listed, hspread⟩
  · refine Or.inl ⟨?_, hview.imp_right fun htakes => ⟨c, htakes⟩⟩
    obtain ⟨-, ⟨t, ms, hm, -⟩ | ⟨tag, r, ms, hm, -, -⟩⟩ := answer_cases h
    · exact pending_lt hc hm hinbox
    · exact pending_lt hc hm hinbox
  · rw [hs.screen] at hspread
    exact Or.inr ⟨c, Finset.mem_range.mpr hc, listed, hspread⟩

/-- Quiet messages die out. -/
theorem settles_of_quiet (hs : Sound e.session.wm e.session.left) (h : e.Quiet) : e.Settles := by
  intro env
  have hcalm : e.Calm := by
    rcases h with hset | ⟨-, hcalm⟩
    · exact Echo.calm_of_settled hset
    · exact hcalm
  refine Echo.not_diverges_of_calm (height_across e.session.wm.screen)
    (echoes_answered env e.session.wm.screen e.session.wm.z.refs) ?_ hcalm
  exact ⟨hs, rfl, rfl, h.imp_right And.left⟩

/-- A client that has a message can answer it. -/
theorem exists_answer (env : Env) (hc : e.session.Live c) (hm : e.inbox c ≠ []) :
    ∃ e', e.answer env c = some e' := by
  rw [answer, if_pos hc]
  cases hinbox : e.inbox c with
  | nil => exact absurd hinbox hm
  | cons m ms => cases m <;> exact ⟨_, rfl⟩

/-- Where windows can be created and images are accepted, a message about a row that makes
nobody pack says what size the row has. -/
theorem rowsize_of_unpacked {r : Rect}
    (hpack : reshapePacking default e.session.wm c "." r = none) :
    e.session.wm.rowsize c = some r.extent := by
  have henv : (default : Env).Willing := ⟨fun _ => rfl, fun _ => rfl⟩
  have hwilling := reshapeImage_willing henv e.session.wm c "." r
  rcases reshape_unpacked hpack with ⟨err, herr⟩ | ⟨-, hsame, -⟩
  · rw [herr] at hwilling
    cases hwilling
  · exact samesize_iff.mp (hsame.resolve_right fun hne => hne rfl)

/-- A message that changes a row's size is answered by a repack, where windows can be created
and images are accepted. -/
theorem answers_of_flying (hd : Displayed e.session.wm e.session.left) (hleg : e.Legible)
    (hflying : (e.view c).flying ≠ []) :
    ∃ e', e.answer default c = some e' ∧ Displayed e'.session.wm e'.session.left ∧
      (e'.view = e.view ∨
        Echo.Answers Point.y (across e.session.wm.screen) e.view c e'.view) := by
  have hlive : e.session.Live c := by
    by_contra hnot
    rw [view, if_neg hnot] at hflying
    exact hflying rfl
  have hview := view_of_live hlive
  have hne : e.inbox c ≠ [] := by
    intro hnil
    rw [hview, hnil] at hflying
    exact hflying rfl
  obtain ⟨e', h⟩ := exists_answer default hlive hne
  refine ⟨e', h, ?_⟩
  obtain ⟨-, ⟨t, ms, hm, rfl⟩ | ⟨tag, r, ms, hm, hsession, hsent⟩⟩ := answer_cases h
  · exact ⟨hd, Or.inl (view_eq_of_update h hm rfl rfl fun _ => rfl)⟩
  · refine ⟨?_, ?_⟩
    · have hacc : ∀ n, (default : Env).accepts n = true := fun _ => rfl
      rw [hsession]
      exact hd.reshape hacc hlive.1 hlive.2
    rcases hsent with ⟨hpack, hinbox⟩ | ⟨w₂, hpack, hinbox⟩
    -- without a repack the request can only be for the size that the row has
    · have hrows : ∀ a, e'.session.wm.rowsize a =
          (e.session.wm.reshapeImage default c (cstring tag) r).1.rowsize a := fun a => by
        rw [hsession]
        exact rowsize_congr (congrFun (reshape_client_of_unpacked hpack) a)
      by_cases hdot : cstring tag = "."
      · rw [hdot] at hpack hrows
        have hsize := rowsize_of_unpacked hpack
        have hcur : (e.view c).cur = some r.extent := by rw [hview, hsize]
        have hrow : e'.session.wm.rowsize c = some r.extent := by
          rw [hrows]
          rcases rowsize_reshapeImage hd.sound default c r with heq | heq
          · rw [heq, hsize]
          · exact heq
        refine Or.inr (.kept r.extent (ms.filterMap Message.row) ?_ hcur ?_)
        · rw [hview, hm]
          exact filterMap_row_cons hdot r ms
        · rw [hcur, ← hrow]
          refine view_update h hinbox ?_
          intro a ha
          exact (hrows a).trans (rowsize_reshapeImage_of_ne (Or.inl ha))
      · refine Or.inl (view_eq_of_update h hm (if_neg hdot) hinbox ?_)
        intro a
        exact (hrows a).trans (rowsize_reshapeImage_of_ne (Or.inr hdot))
    -- a repack leaves nobody out to whom messages are on their way
    · refine Or.inr (.spread (· ∈ w₂.order) ?_
        (spreads_of_packed hd.sound hleg h hm hsession hpack hinbox))
      intro a ha
      by_contra hnot
      have hmem := (reshapePacking_sound hd.sound hlive.1 hlive.2 hpack).2 a
      have horder : a ∉ e.session.wm.order := fun hm => hnot (hmem.mpr (Or.inl hm))
      have hlivea : e.session.Live a := by
        by_contra hgone
        rw [view, if_neg hgone] at ha
        exact ha rfl
      have hwins := hd.hidden a horder hlivea.2
      rw [view_of_live hlivea] at ha
      refine ha ?_
      rw [rowsize, Client.window, hwins]
      rfl

/-- Tense messages can be answered for ever. -/
theorem not_settles_of_tense (hd : Displayed e.session.wm e.session.left) (hleg : e.Legible)
    (h : Echo.Tense Point.y e.view) : ¬ e.Settles := by
  intro hsettles
  refine hsettles default ?_
  refine Echo.diverges_of_tense (I := fun e' => Displayed e'.session.wm e'.session.left ∧
    e'.Legible ∧ e'.session.wm.screen = e.session.wm.screen)
    (height_across e.session.wm.screen) ?_ ⟨hd, hleg, rfl⟩ h
  rintro e₁ c ⟨hd₁, hleg₁, hscreen⟩ hflying
  obtain ⟨e', hanswer, hd', hview⟩ := answers_of_flying hd₁ hleg₁ hflying
  refine ⟨e', ⟨c, hanswer⟩,
    ⟨hd', hleg₁.answer hanswer, (answer_frame hanswer).2.2.trans hscreen⟩, ?_⟩
  rw [← hscreen]
  exact hview

/-- In every state that `rowwm` reaches, with any messages on their way: if these are quiet,
every execution in which the clients only handle them is finite; and if all images so far were
accepted and no window passes for a row, only if they are calm. -/
theorem repacking_settles {screen : Rect} {es : List Event} {s : Session}
    (h : Run (StepOf (Session.step .rowwm env)) (Session.start screen) es s)
    (inbox : Cid → List Message) :
    (Echoing.Quiet ⟨s, inbox⟩ → Echoing.Settles ⟨s, inbox⟩) ∧
      ((∀ n, env.accepts n = true) → Echoing.Legible ⟨s, inbox⟩ →
        Echoing.Settles ⟨s, inbox⟩ → Echoing.Calm ⟨s, inbox⟩) := by
  refine ⟨settles_of_quiet (Session.run_sound h), ?_⟩
  intro hacc hleg hsettles
  by_contra hcalm
  exact not_settles_of_tense (Session.run_displayed hacc h) hleg (Echo.tense_of_not_calm hcalm)
    hsettles

/-- Messages for client 0 only. -/
def only (ms : List Message) (c : Cid) : List Message := if c = 0 then ms else []

theorem view_only {s : Session} (ms : List Message) (h : s.wm.z.refs = 1) (hleft : s.left = []) :
    view ⟨s, only ms⟩ 0 = ⟨s.wm.rowsize 0, ms.filterMap Message.row⟩ ∧
      ∀ c, c ≠ 0 → view ⟨s, only ms⟩ c = ⟨none, []⟩ := by
  have hlive : ∀ c, s.Live c ↔ c = 0 := by
    intro c
    rw [Session.Live, h, hleft, Nat.lt_one_iff]
    simp
  refine ⟨if_pos ((hlive 0).mpr rfl), ?_⟩
  intro c hc
  exact if_neg ((hlive c).not.mpr hc)

theorem legible_only {s : Session} (ms : List Message) (h : s.wm.z.refs = 1)
    (htags : (s.wm.client 0).wins.map Window.tag = ["."]) : Echoing.Legible ⟨s, only ms⟩ := by
  intro c hc
  obtain rfl : c = 0 := Nat.lt_one_iff.mp (h ▸ hc.1)
  rw [Client.Legible, htags]
  decide

/-- One row, with the message about its place on its way. -/
theorem repacking_settles_one :
    ∃ s inbox, Run (StepOf (Session.step .rowwm default)) (Session.start ⟨⟨0, 0⟩, ⟨196, 400⟩⟩)
        (Session.showRow 0) s ∧
      (∀ c, s.wm.mail c = (inbox c).map Message.text) ∧ Settles ⟨s, inbox⟩ := by
  let ms : List Message := [.other "rect 0 0 196 400", .reshape "." ⟨⟨0, 0⟩, ⟨196, 20⟩⟩,
    .other "rect 0 0 196 400"]
  obtain ⟨s, hrun, hout, hrefs, hleft, hsize, htags⟩ :
      ∃ s, Run (StepOf (Session.step .rowwm default)) (Session.start ⟨⟨0, 0⟩, ⟨196, 400⟩⟩)
          (Session.showRow 0) s ∧
        s.wm.out = [.ctl 0 "rect 0 0 196 400", .image 0 none ⟨0, ⟨⟨0, 0⟩, ⟨196, 20⟩⟩⟩ true,
          .ctl 0 "!reshape . -1 0 0 196 20", .ctl 0 "rect 0 0 196 400"] ∧
        s.wm.z.refs = 1 ∧ s.left = [] ∧ s.wm.rowsize 0 = some ⟨196, 20⟩ ∧
        (s.wm.client 0).wins.map Window.tag = ["."] :=
    Run.exists_of_exec (by decide +kernel)
  refine ⟨s, only ms, hrun, ?_, (repacking_settles hrun (only ms)).1
    (Or.inr ⟨legible_only ms hrefs htags, Or.inl ?_⟩)⟩
  · intro c
    rw [mail, hout]
    by_cases hc : c = 0
    · subst hc
      decide
    · simp [only, mailed, hc, Ne.symm hc]
  · obtain ⟨hzero, hothers⟩ := view_only ms hrefs hleft
    intro c
    by_cases hc : c = 0
    · rw [hc, hzero, hsize]
      decide
    · rw [hothers c hc]
      exact fun x hx => absurd hx List.not_mem_nil

/-- A row gets a second size while the message about the first one is on its way. Each answer
to one size is followed by a repack that sends the other one again. -/
theorem two_sizes_never_settle :
    ∃ s inbox, Run (StepOf (Session.step .rowwm default)) (Session.start ⟨⟨0, 0⟩, ⟨196, 400⟩⟩)
        (Session.showRow 0 ++ [.request 0 "!reshape . -1 0 0 196 40" []]) s ∧
      (∀ c, s.wm.mail c = (inbox c).map Message.text) ∧ ¬ Settles ⟨s, inbox⟩ := by
  let ms : List Message := [.other "rect 0 0 196 400", .reshape "." ⟨⟨0, 0⟩, ⟨196, 20⟩⟩,
    .other "rect 0 0 196 400", .reshape "." ⟨⟨0, 0⟩, ⟨196, 40⟩⟩, .other "rect 0 0 196 400"]
  obtain ⟨s, hrun, hout, hrefs, hleft, hsize, htags⟩ :
      ∃ s, Run (StepOf (Session.step .rowwm default)) (Session.start ⟨⟨0, 0⟩, ⟨196, 400⟩⟩)
          (Session.showRow 0 ++ [.request 0 "!reshape . -1 0 0 196 40" []]) s ∧
        s.wm.out = [.ctl 0 "rect 0 0 196 400", .image 0 none ⟨0, ⟨⟨0, 0⟩, ⟨196, 20⟩⟩⟩ true,
          .ctl 0 "!reshape . -1 0 0 196 20", .ctl 0 "rect 0 0 196 400",
          .image 0 none ⟨3, ⟨⟨0, 0⟩, ⟨196, 40⟩⟩⟩ true,
          .ctl 0 "!reshape . -1 0 0 196 40", .ctl 0 "rect 0 0 196 400"] ∧
        s.wm.z.refs = 1 ∧ s.left = [] ∧ s.wm.rowsize 0 = some ⟨196, 40⟩ ∧
        (s.wm.client 0).wins.map Window.tag = ["."] :=
    Run.exists_of_exec (by decide +kernel)
  refine ⟨s, only ms, hrun, ?_, ?_⟩
  · intro c
    rw [mail, hout]
    by_cases hc : c = 0
    · subst hc
      decide
    · simp [only, mailed, hc, Ne.symm hc]
  · have hacc : ∀ n, (default : Env).accepts n = true := fun _ => rfl
    refine not_settles_of_tense (Session.run_displayed hacc hrun)
      (legible_only ms hrefs htags) (Or.inl ⟨0, ?_⟩)
    rw [(view_only ms hrefs hleft).1, hsize]
    decide

end Echoing

end Aimsgui
