import Aimsgui.AlertWatchers

/-!
# The watchers of an alert

A watcher reads the list of servers again and again and reports to `ctlproc` whether one of
them is worth playing on. All watchers share `rotc.B`; they differ in `check_server`. A line of
the list is taken apart by `hd` and `tl` without a look at how many fields it has, and `hd` of
nothing breaks the process: nobody is told.

`Watching` is the control process together with the programs of its watchers, in the order in
which they were spawned. The list that a watcher gets when it opens the file is up to the
environment, and so is whether the file can be opened.
-/

namespace Aimsgui

open Transition

/-! ## Servers -/

/-- `sys->tokenize(s, " ")`: the words between blanks. -/
def tokenize (s : String) : List String :=
  ((s.toList.splitOnP (· = ' ')).filter (· ≠ [])).map String.ofList

namespace Srvloc

/-- A letter from a to z. -/
def isLetter (c : Char) : Bool := 'a' ≤ c && c ≤ 'z'

/-- The first match of `[a-z]+`, which is as long as it can be. -/
def countrycode (candidate : String) : List Char :=
  ((candidate.toList.map Char.toLower).dropWhile fun c => !isLetter c).takeWhile isLetter

/-- Whether a server's location belongs to the place that is asked for. -/
def check (locationcode candidate : String) : Bool :=
  if locationcode = "-a" then true
  else
    let cc := String.ofList (countrycode candidate)
    match locationcode with
    | "eu" => cc ∈ ["eu", "de", "ch", "sui"]
    | "us" => cc ∈ ["us"]
    | "au" => cc ∈ ["au"]
    | _ => false

end Srvloc

/-- The files that implement `Mwatcher`. -/
inductive Mwatcher where
  | alux | aluxPure | rotcEth | rotcEthPure | rotcEthQuickdeath
  deriving DecidableEq, Repr

namespace Mwatcher

/-- `load Mwatcher "/dis/aimsgui/watcher/" + wtype + ".dis"` -/
def load : String → Option Mwatcher
  | "alux" => some alux
  | "alux-pure" => some aluxPure
  | "rotc-eth" => some rotcEth
  | "rotc-eth-pure" => some rotcEthPure
  | "rotc-eth-quickdeath" => some rotcEthQuickdeath
  | _ => none

/-- The constant `WATCHERTYPE`. -/
def watchertype : Mwatcher → String
  | alux => "alux"
  | aluxPure => "alux-pure"
  | rotcEth | rotcEthPure => "rotc-eth"
  | rotcEthQuickdeath => "rotc-eth-quickdeath"

/-- Whether the game of a server is the right one; `none` where its third field is missed. -/
def checkServer (fields : List String) : Mwatcher → Option Bool
  | alux | aluxPure => some false
  | rotcEth => some true
  | rotcEthPure => fields[2]?.map fun gametype => !gametype.toList.contains '['
  | rotcEthQuickdeath =>
    fields[2]?.map fun gametype => gametype.toList.tails.any "QUICKDEATH".toList.isPrefixOf

end Mwatcher

/-! ## A watcher -/

/-- What a watcher does after it has sent a state. -/
inductive After where
  /-- open the list -/
  | watch
  /-- return from `run`, and tell that -/
  | fail
  /-- end -/
  | finish
  deriving DecidableEq, Repr

/-- Where a watcher stands. -/
inductive Watchpc where
  /-- before it publishes its pid -/
  | fresh
  | load
  /-- in `bufio->open` -/
  | watch
  /-- in `statechan <-= (state, error)` -/
  | send (state : Int) (error : Option String) (next : After)
  | finish
  /-- broken by `hd` of nothing -/
  | broken
  deriving DecidableEq, Repr

/-- A watcher with its variables. -/
structure Watcher where
  wtype : String
  wargs : List String
  pc : Watchpc := .fresh
  /-- the module that is loaded -/
  module : Mwatcher := .alux
  location : String := ""
  playercount : Int := 0
  state : Int := -1
  deriving DecidableEq, Repr

namespace Watcher

/-- What `watcherproc` reports at its end. -/
def unexpected : String := "watcher terminated unexpectedly"

/-- Where it stands after a send. -/
def next : After → Watchpc
  | .watch => .watch
  | .fail => .send (-1) (some unexpected) .finish
  | .finish => .finish

/-- `set_state(newstate)` -/
def setState (w : Watcher) (newstate : Int) : Watcher :=
  if newstate ≠ w.state then { w with state := newstate, pc := .send newstate none .watch }
  else { w with pc := .watch }

/-- `load`, and `run` as far as the first list. -/
def loaded (w : Watcher) (ok : Bool) : Watcher :=
  match ok, Mwatcher.load w.wtype, w.wargs with
  | true, some m, [location, playercount] =>
    setState { w with module := m, location := location, playercount := int playercount } 0
  | true, some m, _ =>
    { w with
      module := m
      pc := .send (-1) (some ("usage: " ++ m.watchertype ++ " server_location player_count")) .fail }
  | _, _, _ => { w with pc := .send (-1) (some unexpected) .finish }

/-- Whether a line is about a server worth playing on; `none` where a field is missed. -/
def matching (w : Watcher) (line : String) : Option Bool :=
  let fields := tokenize line
  match fields[4]?, fields[0]? with
  | some candidate, some players =>
    if int players ≥ w.playercount ∧ Srvloc.check w.location candidate then
      w.module.checkServer fields
    else some false
  | _, _ => none

/-- The loop over the lines of a list. -/
def walk (w : Watcher) (newstate : Int) : List String → Option Int
  | [] => some newstate
  | line :: lines =>
    match w.matching line with
    | some found => walk w (if found then 1 else newstate) lines
    | none => none

/-- A turn of the loop of `run`: what comes of opening the file. -/
def reading (w : Watcher) : Except String (List String) → Watcher
  | .error r =>
    { w with
      pc := .send (-1) (some ("error opening /mnt/aims/rotc/serverlist/v1/wait: " ++ r)) .fail }
  | .ok lines =>
    match w.walk 0 lines with
    | some newstate => w.setState newstate
    | none => { w with pc := .broken }

end Watcher

/-! ## The alert with its watchers -/

/-- The control process and the programs of the watchers. -/
structure Watching where
  ctl : Ctlproc := {}
  watchers : List Watcher := []
  deriving DecidableEq, Repr

namespace Watching

/-- A step of `ctlproc`, of a ring process or of a watcher. -/
inductive Event where
  | command (cmdline : String) (cerror : Bool)
  | act (t : Todo)
  | ringstart (i : Nat)
  | ring (i : Nat)
  /-- the watcher publishes its pid -/
  | start (i : Nat)
  /-- the watcher's module is loaded, or cannot be -/
  | load (i : Nat) (ok : Bool)
  /-- the watcher opens the list and reads it, or cannot open it -/
  | read (i : Nat) (list : Except String (List String))
  /-- `ctlproc` takes a state from the watcher -/
  | report (i : Nat) (state : Int) (error : Option String)
  /-- the watcher has sent its last state -/
  | finish (i : Nat)

/-- A step of the control process alone. -/
def control (s : Watching) (e : Ctlproc.Event) : Option Watching :=
  (s.ctl.step e).map fun ctl => { s with ctl := ctl }

/-- A step of the program of a watcher that runs. -/
def advance (s : Watching) (i : Nat) (f : Watcher → Option Watcher) : Option Watching :=
  if s.ctl.watchers[i]? = some .running then
    (s.watchers[i]?.bind f).map fun w => { s with watchers := s.watchers.set i w }
  else none

/-- `spawn watcherproc(wtype, wargs)` -/
def spawned (s : Watching) : Watching :=
  { s with watchers := s.watchers ++ [{ wtype := s.ctl.watchertype, wargs := s.ctl.watcherargs }] }

/-- `alert` does one thing, or its watcher. -/
def step (s : Watching) : Event → Option Watching
  | .command cmdline cerror => s.control (.command cmdline cerror)
  | .act .watcherspawn => s.spawned.control (.act .watcherspawn)
  | .act t => s.control (.act t)
  | .ringstart i => s.control (.ringstart i)
  | .ring i => s.control (.ring i)
  | .start i =>
    (s.control (.watcherstart i)).bind fun s =>
      s.advance i fun w => if w.pc = .fresh then some { w with pc := .load } else none
  | .load i ok => s.advance i fun w => if w.pc = .load then some (w.loaded ok) else none
  | .read i list =>
    (s.advance i fun w => if w.pc = .watch then some (w.reading list) else none).bind fun s =>
      if (s.watchers[i]?.map Watcher.pc) = some .broken then s.control (.watcherend i) else some s
  | .report i state error =>
    (s.advance i fun w =>
      match w.pc with
      | .send state' error' next =>
        if state' = state ∧ error' = error then some { w with pc := Watcher.next next } else none
      | _ => none).bind fun s => s.control (.report i state)
  | .finish i =>
    (s.advance i fun w => if w.pc = .finish then some w else none).bind fun s =>
      s.control (.watcherend i)

end Watching

end Aimsgui
