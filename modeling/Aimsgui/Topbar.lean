import Aimsgui.Lib.Custody
import Aimsgui.TabBar

/-!
# The toolbar of `topwin`

This `toolbar.b` shows a button for each window that has been put away. A client asks for its
button by a request that the window manager forwards (`task`), and for the button to go by another
one (`untask`). A click on a button makes the toolbar remove it, and have the client told to show
its window again. What a message means for the button of one client is its `note`.
-/

namespace Aimsgui

namespace Topbar

open Toolbar (Request)
open Custody

/-- What the toolbar does about a control message. -/
inductive Call where
  /-- too few words, or nothing to do -/
  | ignore
  /-- a request that is answered with an error -/
  | refuse (err : String)
  | iconify (id label : String)
  | deiconify (id : String)
  /-- `layout`, after the message has told the toolbar's own window about the screen -/
  | layout (c : String)
  /-- the message is for the toolbar's own window -/
  | own (c : String)
  deriving DecidableEq, Repr

/-- `handlerequest`: the request `cmd args` of a client, forwarded by the window manager. -/
def handlerequest (clientid cmd : String) (args : List String) : Call :=
  match cmd with
  | "task" => match args with
    | [label] => .iconify clientid label
    | _ => .refuse "no task label given"
  | "untask" | "unhide" => .deiconify clientid
  | _ => .refuse "unknown request"

/-- `wmctl`. Without an argument "delclient" dereferences nil. -/
def wmctl (c : String) : Option Call :=
  match unquoted c with
  | [] => some .ignore
  | cmd :: args => match cmd with
    | "request" => match args with
      | clientid :: req :: reqargs => some (handlerequest clientid req reqargs)
      | _ => some .ignore
    | "newclient" => some .ignore
    | "delclient" => args.head?.map .deiconify
    | "rect" => some (.layout c)
    | _ => some (.own c)

/-! ## The buttons -/

/-- The loop of `condenselabel`, for `l` more lines. -/
def condense : Nat → List Char → List Char
  | 0, label => label
  | l + 1, label =>
    if 15 < label.length then
      label.take 15 ++ '\n' :: condense l ((label.drop 15).dropWhile (· = ' '))
    else label

/-- `condenselabel` -/
def condenselabel (label : String) : String := String.ofList (condense 3 label.toList)

/-- The buttons from left to right, each with the id of its client and its text. -/
abbrev Buttons := List (String × String)

/-- `iconify`: there is no second button of the same name, but the old one gets the new text. -/
def iconify (b : Buttons) (id label : String) : Buttons :=
  if id ∈ b.map Prod.fst then b.map fun x => if x.1 = id then (id, condenselabel label) else x
  else b ++ [(id, condenselabel label)]

/-- `deiconify` -/
def deiconify (b : Buttons) (id : String) : Buttons × List Request :=
  if id ∈ b.map Prod.fst then (b.filter (·.1 ≠ id), [⟨id, .untask⟩, ⟨id, .kbdfocus⟩])
  else (b, [])

/-- The request of `layout` for a place on the screen, where the message `c` says where that is. -/
def layout (c : String) : String :=
  let coord i := int ((unquoted c).getD i "")
  "!reshape . -1 " ++ Wm.r2s ⟨⟨coord 1, coord 2⟩, ⟨coord 3, coord 2 + 18⟩⟩ ++ " exact"

/-- What a call makes of the buttons, and the requests that are sent to the window manager. -/
def call (b : Buttons) : Call → Buttons × List String
  | .ignore | .refuse _ => (b, [])
  | .iconify id label => (iconify b id label, [])
  | .deiconify id => ((deiconify b id).1, (deiconify b id).2.map Request.text)
  | .layout c => (b, [layout c])
  | .own c => (b, (Tkclient.wmctl c).toList)

/-- What a call means for the button of the client of that id. -/
def Call.note (id : String) : Call → Option (Slip String)
  | .iconify id' label => if id' = id then some (.deposit (condenselabel label)) else none
  | .deiconify id' => if id' = id then some .withdraw else none
  | .ignore | .refuse _ | .layout _ | .own _ => none

/-- What a message means for the button of the client of that id. -/
def note (id e : String) : Option (Slip String) := (wmctl e).bind (Call.note id)

/-- What a request of the client of that id means for its button. -/
def asked (id data : String) : Option (Slip String) :=
  match unquoted data with
  | [] => none
  | cmd :: args => (handlerequest id cmd args).note id

variable {b : Buttons} {id id' label e : String} {n : Slip String} {f : Call}

/-! ## One button -/

/-- A client has a button just if one is found under its id. -/
theorem mem_keys : id ∈ b.map Prod.fst ↔ (b.lookup id).isSome = true := by
  rw [List.lookup_isSome_iff, List.mem_map]
  constructor
  · rintro ⟨x, hx, rfl⟩
    exact ⟨x, hx, beq_self_eq_true _⟩
  · rintro ⟨x, hx, heq⟩
    exact ⟨x, hx, (beq_iff_eq.mp heq).symm⟩

/-- `iconify` puts the condensed label on the button, also on one that was there. -/
theorem lookup_iconify_self : (iconify b id label).lookup id = some (condenselabel label) := by
  rw [iconify]
  split_ifs with hid
  · induction b with
    | nil => cases hid
    | cons x b ih =>
      by_cases hx : x.1 = id
      · rw [List.map_cons, if_pos hx, List.lookup_cons_self]
      · have htail : id ∈ b.map Prod.fst := (List.mem_cons.mp hid).resolve_left (Ne.symm hx)
        rw [List.map_cons, if_neg hx, List.lookup_cons, beq_false_of_ne (Ne.symm hx)]
        exact ih htail
  · have hnone : b.lookup id = none :=
      Option.not_isSome_iff_eq_none.mp fun h => hid (mem_keys.mpr h)
    rw [List.lookup_append, hnone, List.lookup_cons_self]
    rfl

/-- The other buttons stay. -/
theorem lookup_iconify_of_ne (h : id' ≠ id) : (iconify b id label).lookup id' = b.lookup id' := by
  rw [iconify]
  split_ifs
  · clear * - h
    induction b with
    | nil => rfl
    | cons x b ih =>
      rw [List.map_cons]
      by_cases hx : x.1 = id
      · rw [if_pos hx, List.lookup_cons, List.lookup_cons, beq_false_of_ne h, ih,
          beq_false_of_ne (hx ▸ h)]
      · rw [if_neg hx, List.lookup_cons, List.lookup_cons, ih]
  · rw [List.lookup_append, List.lookup_cons, beq_false_of_ne h, List.lookup_nil, Option.or_none]

/-- `deiconify` removes the button. -/
theorem lookup_deiconify_self : (deiconify b id).1.lookup id = none := by
  rw [deiconify]
  split_ifs with hid
  · refine List.lookup_eq_none_iff.mpr fun x hx => ?_
    have hne := of_decide_eq_true (List.mem_filter.mp hx).2
    exact bne_iff_ne.mpr (Ne.symm hne)
  · exact Option.not_isSome_iff_eq_none.mp fun h => hid (mem_keys.mpr h)

/-- It removes no other. -/
theorem lookup_deiconify_of_ne (h : id' ≠ id) : (deiconify b id).1.lookup id' = b.lookup id' := by
  rw [deiconify]
  split_ifs
  · clear * - h
    induction b with
    | nil => rfl
    | cons x b ih =>
      by_cases hx : x.1 = id
      · rw [List.filter_cons_of_neg (by simpa using hx), List.lookup_cons, ih,
          beq_false_of_ne (hx ▸ h)]
      · rw [List.filter_cons_of_pos (by simpa using hx), List.lookup_cons, List.lookup_cons, ih]
  · rfl

/-- The window manager is sent requests just if there was a button. -/
theorem deiconify_requests : (deiconify b id).2 =
    if (b.lookup id).isSome then [⟨id, .untask⟩, ⟨id, .kbdfocus⟩] else [] := by
  rw [deiconify]
  simp only [mem_keys]
  split_ifs <;> rfl

/-- The button of one client after a call. -/
theorem lookup_call (b : Buttons) (f : Call) (id : String) :
    (call b f).1.lookup id = (f.note id).elim (b.lookup id) Slip.ticket := by
  cases f with
  | iconify id' label =>
    rw [call, Call.note]
    split_ifs with hid
    · subst hid
      exact lookup_iconify_self
    · exact lookup_iconify_of_ne (Ne.symm hid)
  | deiconify id' =>
    rw [call, Call.note]
    split_ifs with hid
    · subst hid
      exact lookup_deiconify_self
    · exact lookup_deiconify_of_ne (Ne.symm hid)
  | ignore | refuse | layout | own => rfl

/-- Nobody has two buttons. -/
theorem nodup_call (f : Call) (h : (b.map Prod.fst).Nodup) : ((call b f).1.map Prod.fst).Nodup := by
  cases f with
  | iconify id label =>
    rw [call, iconify]
    split_ifs with hid
    · -- the button of that name keeps it
      have hkeys : (b.map fun x => if x.1 = id then (id, condenselabel label) else x).map Prod.fst =
          b.map Prod.fst := by
        rw [List.map_map]
        refine List.map_congr_left fun x _ => ?_
        rw [Function.comp_apply]
        split_ifs with hx
        · exact hx.symm
        · rfl
      rwa [hkeys]
    · rw [List.map_append]
      exact List.concat_eq_append ▸ h.concat hid
  | deiconify id =>
    rw [call, deiconify]
    split_ifs
    · exact h.sublist (List.filter_sublist.map _)
    · exact h
  | ignore | refuse | layout | own => exact h

/-! ## Messages -/

/-- A request can be read off its text, which `unquoted` takes apart. -/
theorem text_injective {r r' : Request} (h : r.text = r'.text) : r = r' := by
  have hwords := congrArg unquoted h
  rw [Request.text, Request.text, unquoted_quoted, unquoted_quoted] at hwords
  obtain ⟨id, o⟩ := r
  obtain ⟨id', o'⟩ := r'
  simp only [List.cons.injEq, true_and] at hwords
  obtain ⟨rfl, horder⟩ := hwords
  have ho : o = o' := by
    cases o <;> cases o' <;> first | rfl | exact absurd horder (by decide)
  rw [ho]

/-- The message about a client that leaves. -/
theorem note_delclient (n : Nat) : note id ("delclient " ++ toString n) =
    if toString n = id then some .withdraw else none := by
  have hwords : unquoted ("delclient " ++ toString n) = ["delclient", toString n] := by
    have hblank : "delclient " = "delclient" ++ " " := by decide
    rw [hblank, unquoted_event (by decide) (plain_id n)]
  rw [note, wmctl, hwords]
  rfl

/-- A request that has been forwarded. -/
theorem unquoted_request (n : Nat) (data : String) :
    unquoted ("request " ++ toString n ++ " " ++ data) =
      "request" :: toString n :: unquoted data := by
  have hblank : "request " = "request" ++ " " := by decide
  have hmsg : "request " ++ toString n ++ " " ++ data =
      "request" ++ " " ++ (toString n ++ " " ++ data) := by
    rw [hblank]
    simp only [String.append_assoc]
  rw [hmsg, unquoted_cons (by decide), unquoted_cons (plain_id n)]

/-- A request that is forwarded is about the button of the client that it names. -/
theorem note_request (n : Nat) (data : String) :
    note id ("request " ++ toString n ++ " " ++ data) =
      if toString n = id then asked id data else none := by
  rw [note, wmctl, unquoted_request, asked]
  cases unquoted data with
  | nil => simp [Call.note]
  | cons cmd args =>
    simp only [Option.bind_some, handlerequest]
    split
    · split <;> simp [Call.note]
    all_goals simp [Call.note]

end Topbar

end Aimsgui
