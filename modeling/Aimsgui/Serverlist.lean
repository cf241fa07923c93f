import Aimsgui.Lib.Fields
import Aimsgui.Lib.Lines
import Aimsgui.Watcher

/-!
# The list of servers

`serverswin` reads the list of servers line by line and makes a row of labels for each line. The
name of a server may have blanks in it, so `server_add` joins the fields from the eighth on,
with a blank after each of them, and cuts off two characters at the end: the last blank and the
newline, which is a part of the last field. Where the line has no newline, it cuts off the last
character of the name (`server_add_torn`).
-/

namespace Aimsgui

open Fields

/-- The texts that are handed to Tk for the labels of a row, and the numbers in them. -/
structure Server where
  playercount : Int
  maxplayers : Int
  minalertedplayers : Int
  optalertedplayers : Int
  interestedplayers : Int
  game : String
  environment : String
  servername : String
  deriving DecidableEq, Repr

namespace Serverswin

/-- The loop over what is left of the fields. -/
def join (fields : List String) : String :=
  fields.foldl (fun servername field => servername ++ field ++ " ") ""

/-- `servername[0:len servername - 2]` -/
def cut (servername : String) : Option String :=
  if servername.length < 2 then none
  else some (String.ofList (servername.toList.take (servername.length - 2)))

/-- `server_add`; `none` where a field is missed. -/
def server_add (line : String) : Option Server := do
  let fields := tokenize line
  let playercount ← fields[0]?
  let maxplayers ← fields[1]?
  let minalertedplayers ← fields[2]?
  let optalertedplayers ← fields[3]?
  let interestedplayers ← fields[4]?
  let game ← fields[5]?
  let environment ← fields[6]?
  -- `locationcode` is looked at, but it stays in the list
  let _ ← fields[7]?
  let servername ← cut (join (fields.drop 7))
  return ⟨int playercount, int maxplayers, int minalertedplayers, int optalertedplayers,
    int interestedplayers, game, environment, servername⟩

/-- `update_servers` with what is left of the file: `gets` until there is nothing more. -/
def update_servers (buf : List Char) : Option (List Server) :=
  if buf = [] then some []
  else do
    let server ← server_add (String.ofList (Lines.first '\n' buf))
    let servers ← update_servers (Lines.rest '\n' buf)
    return server :: servers
termination_by buf.length
decreasing_by exact Lines.length_rest_lt ‹_›

/-- The line without its newline. -/
def chomp (line : String) : String :=
  if ['\n'] <:+ line.toList then String.ofList line.toList.dropLast else line

/-- The name in a line: the fields from the eighth on. -/
def nameOf (line : String) : String := " ".intercalate ((tokenize (chomp line)).drop 7)

variable {line : String}

/-! ## The loop and the cut -/

theorem foldl_join (l : List String) (servername : String) :
    l.foldl (fun servername field => servername ++ field ++ " ") servername =
      servername ++ String.ofList ((l.map String.toList).flatMap (· ++ [' '])) := by
  induction l generalizing servername with
  | nil => simp
  | cons field l ih =>
    rw [List.foldl_cons, ih, ← String.toList_inj]
    simp

theorem join_eq (l : List String) :
    join l = String.ofList ((l.map String.toList).flatMap (· ++ [' '])) := by
  rw [join, foldl_join]
  simp

theorem cut_append (s : List Char) (a b : Char) :
    cut (String.ofList (s ++ [a, b])) = some (String.ofList s) := by
  rw [cut, if_neg (by simp)]
  simp

theorem tokenize_eq : tokenize line = (fields ' ' line.toList).map String.ofList := rfl

theorem toList_map_ofList (l : List (List Char)) : (l.map String.ofList).map String.toList = l := by
  rw [List.map_map]
  exact (List.map_congr_left fun s _ => String.toList_ofList).trans (List.map_id l)

/-- What `server_add` makes of the fields of a line. -/
theorem servername_eq (h : 8 ≤ (fields ' ' line.toList).length) :
    (server_add line).map Server.servername =
      cut (String.ofList (((fields ' ' line.toList).drop 7).flatMap (· ++ [' ']))) := by
  have hfield (i : Nat) (hi : i < 8) : ∃ field, (tokenize line)[i]? = some field := by
    have hlen : i < (tokenize line).length := by
      rw [tokenize_eq, List.length_map]
      omega
    exact ⟨_, List.getElem?_eq_getElem hlen⟩
  obtain ⟨playercount, h0⟩ := hfield 0 (by decide)
  obtain ⟨maxplayers, h1⟩ := hfield 1 (by decide)
  obtain ⟨minalertedplayers, h2⟩ := hfield 2 (by decide)
  obtain ⟨optalertedplayers, h3⟩ := hfield 3 (by decide)
  obtain ⟨interestedplayers, h4⟩ := hfield 4 (by decide)
  obtain ⟨game, h5⟩ := hfield 5 (by decide)
  obtain ⟨environment, h6⟩ := hfield 6 (by decide)
  obtain ⟨locationcode, h7⟩ := hfield 7 (by decide)
  have hjoin : join ((tokenize line).drop 7) =
      String.ofList (((fields ' ' line.toList).drop 7).flatMap (· ++ [' '])) := by
    rw [join_eq, tokenize_eq, ← List.map_drop, toList_map_ofList]
  rw [server_add]
  simp only [h0, h1, h2, h3, h4, h5, h6, h7, hjoin, Option.bind_eq_bind, Option.bind_some]
  cases cut _ <;> rfl

theorem nameOf_eq : nameOf line =
    String.ofList ([' '].intercalate ((fields ' ' (chomp line).toList).drop 7)) := by
  have hblank : " ".toList = [' '] := rfl
  rw [← String.toList_inj, nameOf, String.toList_intercalate, tokenize_eq, ← List.map_drop,
    toList_map_ofList, hblank, String.toList_ofList]

/-! ## Names -/

/-- Without a newline, the name loses its last character. -/
theorem server_add_torn (hline : ¬ ['\n'] <:+ line.toList)
    (h : 8 ≤ (tokenize (chomp line)).length) :
    ∃ s c, nameOf line = String.ofList (s ++ [c]) ∧
      (server_add line).map Server.servername = some (String.ofList s) := by
  have hchomp : chomp line = line := if_neg hline
  rw [hchomp, tokenize_eq, List.length_map] at h
  have hnil : (fields ' ' line.toList).drop 7 ≠ [] := by
    rw [Ne, List.drop_eq_nil_iff]
    omega
  obtain ⟨front, v, hdrop⟩ := (List.eq_nil_or_concat' _).resolve_left hnil
  have hv : v ∈ fields ' ' line.toList := by
    apply List.mem_of_mem_drop (i := 7)
    rw [hdrop]
    exact List.mem_append_right front List.mem_cons_self
  obtain ⟨w, c, rfl⟩ := (List.eq_nil_or_concat' v).resolve_left (ne_nil_of_mem_fields hv)
  refine ⟨front.flatMap (· ++ [' ']) ++ w, c, ?_, ?_⟩
  · rw [nameOf_eq, hchomp, hdrop, intercalate_append_singleton, List.append_assoc]
  · rw [servername_eq h, hdrop, flatMap_append_singleton, intercalate_append_singleton,
      ← List.append_assoc, List.append_assoc]
    exact cut_append _ c ' '

theorem chomp_ofList (s : List Char) : chomp (String.ofList (s ++ ['\n'])) = String.ofList s := by
  have hsuffix : ['\n'] <:+ (String.ofList (s ++ ['\n'])).toList := by
    rw [String.toList_ofList]
    exact List.suffix_append s ['\n']
  rw [chomp, if_pos hsuffix, String.toList_ofList, List.dropLast_concat]

/-- With a newline after a word, the name is as it should be. -/
theorem server_add_ended {s : List Char} (hs : ¬ [' '] <:+ s)
    (h : 8 ≤ (fields ' ' s).length) :
    (server_add (String.ofList (s ++ ['\n']))).map Server.servername =
      some (nameOf (String.ofList (s ++ ['\n']))) := by
  have hnil : s ≠ [] := by
    rintro rfl
    exact absurd h (by decide)
  obtain ⟨front, v, hfields, happend⟩ := fields_append hnil hs
  have hline := happend ['\n'] (by decide)
  rw [hfields, List.length_append, List.length_singleton] at h
  have hdrop (w : List Char) : (front ++ [w]).drop 7 = front.drop 7 ++ [w] :=
    List.drop_append_of_le_length (by omega)
  rw [servername_eq, nameOf_eq, chomp_ofList, String.toList_ofList, String.toList_ofList, hline,
    hfields, hdrop, hdrop, flatMap_append_singleton, intercalate_append_singleton,
    intercalate_append_singleton]
  · rw [← List.append_assoc, List.append_assoc]
    exact cut_append _ '\n' ' '
  · rw [String.toList_ofList, hline, List.length_append, List.length_singleton]
    exact h

/-- With a newline after a blank, the blank is left at the end of the name. -/
theorem server_add_blank {s : List Char} (hs : [' '] <:+ s) (h : 8 ≤ (fields ' ' s).length) :
    (server_add (String.ofList (s ++ ['\n']))).map Server.servername =
      some (nameOf (String.ofList (s ++ ['\n'])) ++ " ") := by
  obtain ⟨u, rfl⟩ := hs
  rw [fields_sep] at h
  have hline : fields ' ' (u ++ [' '] ++ ['\n']) = fields ' ' u ++ [['\n']] :=
    fields_append_sep (by decide) (by decide)
  have hdrop : (fields ' ' u ++ [['\n']]).drop 7 = (fields ' ' u).drop 7 ++ [['\n']] :=
    List.drop_append_of_le_length (by omega)
  have hnil : (fields ' ' u).drop 7 ≠ [] := by
    rw [Ne, List.drop_eq_nil_iff]
    omega
  obtain ⟨front, v, hname⟩ := (List.eq_nil_or_concat' _).resolve_left hnil
  rw [servername_eq, nameOf_eq, chomp_ofList, String.toList_ofList, String.toList_ofList, hline,
    hdrop, fields_sep, flatMap_append_singleton, intercalate_append_singleton, hname,
    flatMap_append_singleton]
  · have hcut := cut_append ([' '].intercalate (front ++ [v]) ++ [' ']) '\n' ' '
    have hleft : String.ofList ([' '].intercalate (front ++ [v]) ++ [' ']) =
        String.ofList ([' '].intercalate (front ++ [v])) ++ " " := String.ofList_append
    rw [← hleft, List.append_assoc _ ['\n'] [' ']]
    exact hcut
  · rw [String.toList_ofList, hline, List.length_append]
    omega

/-- The lines of which the name is shown as it is. -/
theorem server_add_named_iff (h : 8 ≤ (tokenize (chomp line)).length) :
    (server_add line).map Server.servername = some (nameOf line) ↔
      ['\n'] <:+ line.toList ∧ ¬ [' ', '\n'] <:+ line.toList := by
  by_cases hline : ['\n'] <:+ line.toList
  · obtain ⟨s, hs⟩ := hline
    have hofList : line = String.ofList (s ++ ['\n']) := by
      rw [hs, String.ofList_toList]
    subst hofList
    rw [chomp_ofList, tokenize_eq, List.length_map, String.toList_ofList] at h
    have hended : ['\n'] <:+ (String.ofList (s ++ ['\n'])).toList := by
      rw [String.toList_ofList]
      exact List.suffix_append s ['\n']
    have hblank : [' ', '\n'] <:+ (String.ofList (s ++ ['\n'])).toList ↔ [' '] <:+ s := by
      rw [String.toList_ofList]
      exact @List.suffix_append_self_iff _ [' '] s ['\n']
    rw [hblank]
    by_cases hs : [' '] <:+ s
    · rw [server_add_blank hs h]
      refine iff_of_false (fun heq => ?_) fun hnot => hnot.2 hs
      have hlength := congrArg String.length (Option.some.inj heq)
      simp at hlength
    · exact iff_of_true (server_add_ended hs h) ⟨hended, hs⟩
  · obtain ⟨s, c, hname, hshown⟩ := server_add_torn hline h
    rw [hname, hshown]
    refine iff_of_false (fun heq => ?_) fun hended => hline hended.1
    have hlength := congrArg List.length (String.ofList_injective (Option.some.inj heq))
    simp at hlength

theorem server_add_named_newline :
    8 ≤ (tokenize (chomp "2 8 1 1 3 eth sand eu base\n")).length ∧
      ((server_add "2 8 1 1 3 eth sand eu base\n").map Server.servername =
          some (nameOf "2 8 1 1 3 eth sand eu base\n") ↔
        ['\n'] <:+ "2 8 1 1 3 eth sand eu base\n".toList ∧
          ¬ [' ', '\n'] <:+ "2 8 1 1 3 eth sand eu base\n".toList) :=
  ⟨by decide +kernel, server_add_named_iff (by decide +kernel)⟩

/-- The last line of a file that does not end with a newline. -/
theorem server_add_last_line :
    nameOf "2 8 1 1 3 eth sand eu base" = "eu base" ∧
      (server_add "2 8 1 1 3 eth sand eu base").map Server.servername = some "eu bas" := by
  decide +kernel

/-- A file of which each line ends with a word and a newline is shown with the names in it. -/
theorem update_servers_named (buf : List Char)
    (h : ∀ l ∈ Lines.lines '\n' buf,
      ∃ s, l = s ++ ['\n'] ∧ ¬ [' '] <:+ s ∧ 8 ≤ (fields ' ' s).length) :
    (update_servers buf).map (List.map Server.servername) =
      some ((Lines.lines '\n' buf).map fun l => nameOf (String.ofList l)) := by
  induction buf using Lines.lines.induct '\n' with
  | case1 => rw [update_servers, if_pos rfl, Lines.lines, if_pos rfl]; rfl
  | case2 buf hbuf ih =>
    rw [Lines.lines, if_neg hbuf, List.forall_mem_cons] at h
    obtain ⟨⟨s, hs, hblank, hfields⟩, hrest⟩ := h
    have hfirst := server_add_ended hblank hfields
    rw [← hs] at hfirst
    obtain ⟨server, hserver, hname⟩ := Option.map_eq_some_iff.mp hfirst
    obtain ⟨servers, hservers, hnames⟩ := Option.map_eq_some_iff.mp (ih hrest)
    rw [update_servers, if_neg hbuf, Lines.lines, if_neg hbuf, hserver, hservers, List.map_cons,
      ← hname, ← hnames]
    rfl

end Serverswin

end Aimsgui
