import Mathlib.Data.List.Basic
import Siliqua.Network.CommandLine
import Siliqua.Wallet.Base58

/-!
# The command line

`main` of `Siliqua.cpp`: the table of commands, the check before anything is executed, and the
dispatch. The check and the dispatch read the arguments on their own, with different functions of
the standard library; whatever passes the check is dispatched as it was checked.
-/

namespace Siliqua.Network

open Siliqua.Wallet

/-! ## The table -/

namespace Flag

/-- `"--seed"` -/
def SEED : Bytes := [45, 45, 115, 101, 101, 100]
/-- `"--listen"` -/
def LISTEN : Bytes := [45, 45, 108, 105, 115, 116, 101, 110]
/-- `"--connect"` -/
def CONNECT : Bytes := [45, 45, 99, 111, 110, 110, 101, 99, 116]
/-- `"--address"` -/
def ADDRESS : Bytes := [45, 45, 97, 100, 100, 114, 101, 115, 115]
/-- `"--balance"` -/
def BALANCE : Bytes := [45, 45, 98, 97, 108, 97, 110, 99, 101]
/-- `"--send"` -/
def SEND : Bytes := [45, 45, 115, 101, 110, 100]
/-- `"--receive-tx"` -/
def RECEIVE_TX : Bytes := [45, 45, 114, 101, 99, 101, 105, 118, 101, 45, 116, 120]
/-- `"--daemon"` -/
def DAEMON : Bytes := [45, 45, 100, 97, 101, 109, 111, 110]
/-- `"--no-mine"` -/
def NO_MINE : Bytes := [45, 45, 110, 111, 45, 109, 105, 110, 101]
/-- `"--help"` -/
def HELP : Bytes := [45, 45, 104, 101, 108, 112]
/-- `"-h"` -/
def H : Bytes := [45, 104]

end Flag

/-- `"chain.dat"`; `Siliqua.cpp:153,162`. -/
def DEFAULT_CHAIN_PATH : Bytes := [99, 104, 97, 105, 110, 46, 100, 97, 116]

/-- `Siliqua.cpp:10`. -/
def EXIT_RUNTIME_ERROR : ℤ := 1

/-- `Siliqua.cpp:11`. -/
def EXIT_USAGE_ERROR : ℤ := 2

/-- `Siliqua.cpp:14–20`, without the texts. No vector has more than `UNLIMITED` elements. -/
structure CommandSpec where
  flag : Bytes
  minArgs : ℕ
  maxArgs : Option ℕ

/-- `Siliqua.cpp:22–31`. -/
def kCommands : List CommandSpec :=
  [⟨Flag.SEED, 1, some 1⟩,
    ⟨Flag.LISTEN, 1, some 2⟩,
    ⟨Flag.CONNECT, 2, some 3⟩,
    ⟨Flag.ADDRESS, 1, some 1⟩,
    ⟨Flag.BALANCE, 1, some 1⟩,
    ⟨Flag.SEND, 5, some 5⟩,
    ⟨Flag.RECEIVE_TX, 2, some 2⟩,
    ⟨Flag.DAEMON, 2, none⟩]

/-- `Siliqua.cpp:33–40`. -/
def findCommand (flag : Bytes) : Option CommandSpec := kCommands.find? fun spec ↦ flag = spec.flag

/-! ## Check and dispatch -/

/-- `daemon.h:20–23`. -/
structure PeerAddress where
  host : Bytes
  port : UInt16
  deriving DecidableEq

/-- A command with what it is run on. -/
inductive Invocation where
  | seed (chainPath : Bytes)
  | listen (port : UInt16) (chainPath : Bytes)
  | connect (host : Bytes) (port : UInt16) (chainPath : Bytes)
  | address (chainPath : Bytes)
  | balance (chainPath : Bytes)
  | send (host : Bytes) (port : UInt16) (chainPath : Bytes) (recipient : Address) (amount : Int64)
  | receiveTx (port : UInt16) (chainPath : Bytes)
  | daemon (port : UInt16) (chainPath : Bytes) (peers : List PeerAddress) (mine : Bool)
  | demonstration

/-- How the program ends, or what it goes on with. -/
inductive Outcome where
  | exits (code : ℤ)
  | runs (invocation : Invocation)

/-- `std::stoi`: `none` where it throws. -/
def stoi (text : Bytes) : Option ℤ :=
  match stoll text with
  | none => none
  | some (number, _) => if number < -2 ^ 31 ∨ 2 ^ 31 ≤ number then none else some number

/-- The peer that an argument of `--daemon` names, `none` where it is ignored;
`Siliqua.cpp:223–229`. -/
def parsePeer (text : Bytes) : Option PeerAddress :=
  match text.findIdx? (· == 58) with
  | none => none
  | some colon =>
    if colon = 0 then none
    else (parsePort (text.drop (colon + 1))).map fun port ↦ ⟨text.take colon, port⟩

/-- One turn of the loop over the arguments of `--daemon`; `Siliqua.cpp:218–230`. -/
def addPeer (s : List PeerAddress × Bool) (text : Bytes) : List PeerAddress × Bool :=
  if text = Flag.NO_MINE then (s.1, false)
  else
    match parsePeer text with
    | none => s
    | some peer => (s.1 ++ [peer], s.2)

variable [Crypto]

/-- `Siliqua.cpp:90–134`, without what it prints: `-1` if the command line is to be run, otherwise
the exit code. -/
def checkArguments (args : List Bytes) : ℤ :=
  let arg (i : ℕ) : Bytes := args.getD i []
  let flag := arg 0
  if flag = Flag.HELP ∨ flag = Flag.H then 0
  else
    match findCommand flag with
    | none => EXIT_USAGE_ERROR
    | some spec =>
      let given := args.length - 1
      if given < spec.minArgs ∨ spec.maxArgs.any (· < given) then EXIT_USAGE_ERROR
      else if (flag = Flag.LISTEN ∨ flag = Flag.RECEIVE_TX ∨ flag = Flag.DAEMON) ∧
          (parsePort (arg 1)).isNone then EXIT_USAGE_ERROR
      else if (flag = Flag.CONNECT ∨ flag = Flag.SEND) ∧ (parsePort (arg 2)).isNone then
        EXIT_USAGE_ERROR
      else if flag = Flag.SEND then
        match decodeAddress (arg 4) with
        | .error _ => EXIT_USAGE_ERROR
        | .ok _ => if (parseAmount (arg 5)).isNone then EXIT_USAGE_ERROR else -1
      else -1

/-- What is run on a command line that passed the check; `Siliqua.cpp:139–233`. `none` where reading
an argument throws. Nothing behind `node.Run()` is reached. -/
def run (args : List Bytes) : Option Invocation :=
  let arg (i : ℕ) : Bytes := args.getD i []
  if 2 ≤ args.length ∧ arg 0 = Flag.SEED then some (.seed (arg 1))
  else if 2 ≤ args.length ∧ arg 0 = Flag.LISTEN then do
    let port ← stoi (arg 1)
    some (.listen (UInt16.ofInt port) (if 3 ≤ args.length then arg 2 else DEFAULT_CHAIN_PATH))
  else if 3 ≤ args.length ∧ arg 0 = Flag.CONNECT then do
    let port ← stoi (arg 2)
    some (.connect (arg 1) (UInt16.ofInt port)
      (if 4 ≤ args.length then arg 3 else DEFAULT_CHAIN_PATH))
  else if 2 ≤ args.length ∧ arg 0 = Flag.ADDRESS then some (.address (arg 1))
  else if 2 ≤ args.length ∧ arg 0 = Flag.BALANCE then some (.balance (arg 1))
  else if 6 ≤ args.length ∧ arg 0 = Flag.SEND then do
    let port ← stoi (arg 2)
    let recipient ← (decodeAddress (arg 4)).toOption
    let (amount, _) ← stoll (arg 5)
    some (.send (arg 1) (UInt16.ofInt port) (arg 3) recipient (Int64.ofInt amount))
  else if 3 ≤ args.length ∧ arg 0 = Flag.RECEIVE_TX then do
    let port ← stoi (arg 1)
    some (.receiveTx (UInt16.ofInt port) (arg 2))
  else if 3 ≤ args.length ∧ arg 0 = Flag.DAEMON then do
    let port ← stoi (arg 1)
    let (peers, mine) := (args.drop 3).foldl addPeer ([], true)
    some (.daemon (UInt16.ofInt port) (arg 2) peers mine)
  else some .demonstration

/-- `Siliqua.cpp:343–363`. What the command itself throws is not in here. -/
def main (args : List Bytes) : Outcome :=
  let status := if args.isEmpty then -1 else checkArguments args
  if 0 ≤ status then .exits status
  else
    match run args with
    | none => .exits EXIT_RUNTIME_ERROR
    | some invocation => .runs invocation

/-! ## The grammar -/

/-- The command lines of each command. -/
inductive CommandLine : List Bytes → Invocation → Prop
  | demonstration : CommandLine [] .demonstration
  | seed (chainPath : Bytes) : CommandLine [Flag.SEED, chainPath] (.seed chainPath)
  | listen {text : Bytes} {port : UInt16} (hport : parsePort text = some port) :
      CommandLine [Flag.LISTEN, text] (.listen port DEFAULT_CHAIN_PATH)
  | listenOn {text : Bytes} {port : UInt16} (hport : parsePort text = some port)
      (chainPath : Bytes) : CommandLine [Flag.LISTEN, text, chainPath] (.listen port chainPath)
  | connect (host : Bytes) {text : Bytes} {port : UInt16} (hport : parsePort text = some port) :
      CommandLine [Flag.CONNECT, host, text] (.connect host port DEFAULT_CHAIN_PATH)
  | connectOn (host : Bytes) {text : Bytes} {port : UInt16} (hport : parsePort text = some port)
      (chainPath : Bytes) :
      CommandLine [Flag.CONNECT, host, text, chainPath] (.connect host port chainPath)
  | address (chainPath : Bytes) : CommandLine [Flag.ADDRESS, chainPath] (.address chainPath)
  | balance (chainPath : Bytes) : CommandLine [Flag.BALANCE, chainPath] (.balance chainPath)
  | send (host : Bytes) {text : Bytes} {port : UInt16} (hport : parsePort text = some port)
      (chainPath : Bytes) (recipient : Address) {sum : Bytes} {amount : Int64}
      (hamount : parseAmount sum = some amount) :
      CommandLine [Flag.SEND, host, text, chainPath, encodeAddress recipient, sum]
        (.send host port chainPath recipient amount)
  | receiveTx {text : Bytes} {port : UInt16} (hport : parsePort text = some port)
      (chainPath : Bytes) :
      CommandLine [Flag.RECEIVE_TX, text, chainPath] (.receiveTx port chainPath)
  | daemon {text : Bytes} {port : UInt16} (hport : parsePort text = some port) (chainPath : Bytes)
      (rest : List Bytes) :
      CommandLine (Flag.DAEMON :: text :: chainPath :: rest)
        (.daemon port chainPath (rest.filterMap parsePeer) (decide (Flag.NO_MINE ∉ rest)))

/-! ## Numbers are read alike -/

section

omit [Crypto]

variable {text : Bytes}

/-- The dispatch reads a checked port as the check does. -/
theorem stoi_of_parsePort {port : UInt16} (h : parsePort text = some port) :
    ∃ number, stoi text = some number ∧ UInt16.ofInt number = port := by
  unfold parsePort at h
  split at h
  · cases h
  · next number used hstoll =>
    rw [Option.ite_none_left_eq_some] at h
    obtain ⟨hok, hport⟩ := h
    rw [not_or, not_or, Int.not_lt, Int.not_lt] at hok
    obtain ⟨-, hlow, hhigh⟩ := hok
    refine ⟨number, ?_, ?_⟩
    · rw [stoi, hstoll]
      exact if_neg (by omega)
    · rw [UInt16.ofInt, Int.emod_eq_of_lt (by omega) (by omega)]
      exact Option.some.inj hport

/-- So it does an amount. -/
theorem stoll_of_parseAmount {amount : Int64} (h : parseAmount text = some amount) :
    ∃ number used, stoll text = some (number, used) ∧ Int64.ofInt number = amount := by
  unfold parseAmount at h
  split at h
  · cases h
  · next number used hstoll =>
    rw [Option.ite_none_left_eq_some] at h
    exact ⟨number, used, hstoll, Option.some.inj h.2⟩

/-! ## Peers -/

private theorem findIdx?_colon {host digits : Bytes} (h : 58 ∉ host) :
    (host ++ 58 :: digits).findIdx? (· == 58) = some host.length := by
  rw [List.findIdx?_append, List.findIdx?_eq_none_iff.mpr]
  · simp [List.findIdx?_cons]
  · intro c hc
    exact beq_eq_false_iff_ne.mpr fun heq ↦ h (heq ▸ hc)

/-- A peer is a host without a colon, a colon and a port. -/
theorem parsePeer_eq_some_iff {peer : PeerAddress} : parsePeer text = some peer ↔
    peer.host ≠ [] ∧ 58 ∉ peer.host ∧ ∃ digits, text = peer.host ++ 58 :: digits ∧
      parsePort digits = some peer.port := by
  unfold parsePeer
  constructor
  · intro h
    split at h
    · cases h
    · next colon hfind =>
      rw [Option.ite_none_left_eq_some, Option.map_eq_some_iff] at h
      obtain ⟨hpos, port, hport, rfl⟩ := h
      rw [List.findIdx?_eq_some_iff_getElem] at hfind
      obtain ⟨hlt, hcolon, hbefore⟩ := hfind
      have hhost : 58 ∉ text.take colon := by
        intro hmem
        obtain ⟨i, hi, heq⟩ := List.getElem_of_mem hmem
        rw [List.length_take] at hi
        rw [List.getElem_take] at heq
        have hno := hbefore i (by omega)
        rw [heq] at hno
        exact hno rfl
      refine ⟨fun hnil ↦ ?_, hhost, text.drop (colon + 1), ?_, hport⟩
      · have hlen := congrArg List.length hnil
        rw [List.length_take, List.length_nil] at hlen
        omega
      · have hdrop := List.drop_eq_getElem_cons hlt
        rw [beq_iff_eq.mp hcolon] at hdrop
        rw [← hdrop, List.take_append_drop]
  · rintro ⟨hne, hhost, digits, rfl, hport⟩
    rw [findIdx?_colon hhost]
    dsimp only
    rw [if_neg (List.length_eq_zero_iff.not.mpr hne), List.take_left' rfl, ← List.drop_drop,
      List.drop_left' rfl, List.drop_one, List.tail_cons, hport]
    rfl

/-- `--no-mine` names no peer. -/
theorem parsePeer_NO_MINE : parsePeer Flag.NO_MINE = none := by decide

/-- The loop collects the peers in order, and looks for `--no-mine`. -/
theorem foldl_addPeer (rest : List Bytes) (s : List PeerAddress × Bool) :
    rest.foldl addPeer s =
      (s.1 ++ rest.filterMap parsePeer, s.2 && decide (Flag.NO_MINE ∉ rest)) := by
  induction rest generalizing s with
  | nil => simp
  | cons text rest ih =>
    rw [List.foldl_cons, ih, addPeer]
    by_cases hmine : text = Flag.NO_MINE
    · subst hmine
      rw [if_pos rfl, List.filterMap_cons_none parsePeer_NO_MINE]
      simp
    · rw [if_neg hmine]
      cases hpeer : parsePeer text with
      | none =>
        rw [List.filterMap_cons_none hpeer]
        simp [Ne.symm hmine]
      | some peer =>
        rw [List.filterMap_cons_some hpeer]
        simp [Ne.symm hmine]

end

/-! ## What passes the check -/

section

variable {args : List Bytes}

theorem main_of_checked {invocation : Invocation} (hcheck : checkArguments args = -1)
    (hrun : run args = some invocation) (hne : args ≠ []) : main args = .runs invocation := by
  have hempty : args.isEmpty = false := List.isEmpty_eq_false_iff.mpr hne
  rw [main, hempty, hcheck, hrun]
  rfl

/-- A command line of the grammar passes the check, and is dispatched. -/
theorem main_of_commandLine {invocation : Invocation} (h : CommandLine args invocation) :
    main args = .runs invocation := by
  cases h with
  | demonstration => rfl
  | seed chainPath =>
    refine main_of_checked ?_ ?_ (List.cons_ne_nil _ _)
    · simp +decide [checkArguments, findCommand, kCommands]
    · simp +decide [run]
  | listen hport =>
    obtain ⟨number, hnumber, rfl⟩ := stoi_of_parsePort hport
    refine main_of_checked ?_ ?_ (List.cons_ne_nil _ _)
    · simp +decide [checkArguments, findCommand, kCommands, hport]
    · simp +decide [run, hnumber]
  | listenOn hport chainPath =>
    obtain ⟨number, hnumber, rfl⟩ := stoi_of_parsePort hport
    refine main_of_checked ?_ ?_ (List.cons_ne_nil _ _)
    · simp +decide [checkArguments, findCommand, kCommands, hport]
    · simp +decide [run, hnumber]
  | connect host hport =>
    obtain ⟨number, hnumber, rfl⟩ := stoi_of_parsePort hport
    refine main_of_checked ?_ ?_ (List.cons_ne_nil _ _)
    · simp +decide [checkArguments, findCommand, kCommands, hport]
    · simp +decide [run, hnumber]
  | connectOn host hport chainPath =>
    obtain ⟨number, hnumber, rfl⟩ := stoi_of_parsePort hport
    refine main_of_checked ?_ ?_ (List.cons_ne_nil _ _)
    · simp +decide [checkArguments, findCommand, kCommands, hport]
    · simp +decide [run, hnumber]
  | address chainPath =>
    refine main_of_checked ?_ ?_ (List.cons_ne_nil _ _)
    · simp +decide [checkArguments, findCommand, kCommands]
    · simp +decide [run]
  | balance chainPath =>
    refine main_of_checked ?_ ?_ (List.cons_ne_nil _ _)
    · simp +decide [checkArguments, findCommand, kCommands]
    · simp +decide [run]
  | send host hport chainPath recipient hamount =>
    obtain ⟨number, hnumber, rfl⟩ := stoi_of_parsePort hport
    obtain ⟨units, used, hunits, rfl⟩ := stoll_of_parseAmount hamount
    have haddress := decodeAddress_eq_ok_iff.mpr (rfl : encodeAddress recipient = _)
    refine main_of_checked ?_ ?_ (List.cons_ne_nil _ _)
    · simp +decide [checkArguments, findCommand, kCommands, hport, haddress, hamount]
    · simp +decide [run, hnumber, haddress, hunits, Except.toOption]
  | receiveTx hport chainPath =>
    obtain ⟨number, hnumber, rfl⟩ := stoi_of_parsePort hport
    refine main_of_checked ?_ ?_ (List.cons_ne_nil _ _)
    · simp +decide [checkArguments, findCommand, kCommands, hport]
    · simp +decide [run, hnumber]
  | daemon hport chainPath rest =>
    obtain ⟨number, hnumber, rfl⟩ := stoi_of_parsePort hport
    refine main_of_checked ?_ ?_ (List.cons_ne_nil _ _)
    · simp +decide [checkArguments, findCommand, kCommands, hport]
    · simp +decide [run, hnumber, foldl_addPeer]

omit [Crypto] in
private theorem findCommand_cases {flag : Bytes} {spec : CommandSpec}
    (h : findCommand flag = some spec) : flag = spec.flag ∧ spec ∈ kCommands := by
  unfold findCommand at h
  have hflag := List.find?_some h
  exact ⟨of_decide_eq_true hflag, List.mem_of_find?_eq_some h⟩

omit [Crypto] in
/-- What is checked where it has to be. -/
private theorem exists_of_checked {α : Type} {required : Prop} {found : Option α}
    (hrequired : required) (h : ¬ (required ∧ found.isNone = true)) : ∃ a, found = some a := by
  cases found with
  | none => exact absurd ⟨hrequired, rfl⟩ h
  | some a => exact ⟨a, rfl⟩

omit [Crypto] in
private theorem eq_five_of_length {rest : List Bytes} (h : rest.length = 5) :
    ∃ host text chainPath recipient sum, rest = [host, text, chainPath, recipient, sum] := by
  obtain ⟨host, rest, rfl⟩ := List.exists_cons_of_length_eq_add_one h
  rw [List.length_cons] at h
  obtain ⟨text, rest, rfl⟩ := List.exists_cons_of_length_eq_add_one (Nat.succ.inj h)
  rw [List.length_cons] at h
  obtain ⟨chainPath, recipient, sum, rfl⟩ := List.length_eq_three.mp (Nat.succ.inj (Nat.succ.inj h))
  exact ⟨host, text, chainPath, recipient, sum, rfl⟩

/-- A command line that passes the check is one of the grammar. -/
theorem exists_commandLine (h : checkArguments args = -1) (hne : args ≠ []) :
    ∃ invocation, CommandLine args invocation := by
  obtain ⟨flag, rest, rfl⟩ := List.exists_cons_of_ne_nil hne
  unfold checkArguments at h
  simp only [List.getD_cons_zero, List.getD_cons_succ] at h
  split at h
  · exact absurd h (by decide)
  split at h
  · exact absurd h (by decide)
  next spec hfind =>
  obtain ⟨rfl, hspec⟩ := findCommand_cases hfind
  split at h
  · exact absurd h (by decide)
  next hgiven =>
  split at h
  · exact absurd h (by decide)
  next hfirst =>
  split at h
  · exact absurd h (by decide)
  next hsecond =>
  rw [not_or, List.length_cons, Nat.add_sub_cancel, Nat.not_lt] at hgiven
  obtain ⟨hmin, hmax⟩ := hgiven
  simp only [kCommands, List.mem_cons, List.not_mem_nil, or_false] at hspec
  rcases hspec with rfl | rfl | rfl | rfl | rfl | rfl | rfl | rfl
  · -- `--seed`
    rcases rest with - | ⟨chainPath, - | ⟨more, rest⟩⟩
    · simp at hmin
    · exact ⟨_, .seed chainPath⟩
    · simp at hmax
  · -- `--listen`
    obtain ⟨port, hport⟩ := exists_of_checked (Or.inl rfl) hfirst
    rcases rest with - | ⟨text, - | ⟨chainPath, - | ⟨more, rest⟩⟩⟩
    · simp at hmin
    · exact ⟨_, .listen hport⟩
    · exact ⟨_, .listenOn hport chainPath⟩
    · simp at hmax
  · -- `--connect`
    obtain ⟨port, hport⟩ := exists_of_checked (Or.inl rfl) hsecond
    rcases rest with - | ⟨host, - | ⟨text, - | ⟨chainPath, - | ⟨more, rest⟩⟩⟩⟩
    · simp at hmin
    · simp at hmin
    · exact ⟨_, .connect host hport⟩
    · exact ⟨_, .connectOn host hport chainPath⟩
    · simp at hmax
  · -- `--address`
    rcases rest with - | ⟨chainPath, - | ⟨more, rest⟩⟩
    · simp at hmin
    · exact ⟨_, .address chainPath⟩
    · simp at hmax
  · -- `--balance`
    rcases rest with - | ⟨chainPath, - | ⟨more, rest⟩⟩
    · simp at hmin
    · exact ⟨_, .balance chainPath⟩
    · simp at hmax
  · -- `--send`
    obtain ⟨port, hport⟩ := exists_of_checked (Or.inr rfl) hsecond
    simp only [Option.any_some, decide_eq_true_eq] at hmin hmax
    obtain ⟨host, text, chainPath, recipient, sum, rfl⟩ :=
      eq_five_of_length (show rest.length = 5 by omega)
    rw [if_pos rfl] at h
    split at h
    · exact absurd h (by decide)
    next address haddress =>
    split at h
    · exact absurd h (by decide)
    next hamount =>
    obtain ⟨amount, hamount⟩ := Option.ne_none_iff_exists'.mp
      (Option.isNone_iff_eq_none.not.mp hamount)
    obtain rfl := decodeAddress_eq_ok_iff.mp haddress
    exact ⟨_, .send host hport chainPath address hamount⟩
  · -- `--receive-tx`
    obtain ⟨port, hport⟩ := exists_of_checked (Or.inr (Or.inl rfl)) hfirst
    rcases rest with - | ⟨text, - | ⟨chainPath, - | ⟨more, rest⟩⟩⟩
    · simp at hmin
    · simp at hmin
    · exact ⟨_, .receiveTx hport chainPath⟩
    · simp at hmax
  · -- `--daemon`
    obtain ⟨port, hport⟩ := exists_of_checked (Or.inr (Or.inr rfl)) hfirst
    rcases rest with - | ⟨text, - | ⟨chainPath, rest⟩⟩
    · simp at hmin
    · simp at hmin
    · exact ⟨_, .daemon hport chainPath rest⟩

/-- The first argument asks for the help. -/
def AsksHelp (args : List Bytes) : Prop :=
  args.getD 0 [] = Flag.HELP ∨ args.getD 0 [] = Flag.H

instance (args : List Bytes) : Decidable (AsksHelp args) :=
  inferInstanceAs (Decidable (_ ∨ _))

/-- The check ends the program well after the help, and else with the usage error, or lets the
command line pass. -/
theorem checkArguments_cases (args : List Bytes) :
    checkArguments args = (if AsksHelp args then 0 else EXIT_USAGE_ERROR) ∨
      checkArguments args = -1 := by
  unfold checkArguments
  dsimp only
  by_cases hhelp : AsksHelp args
  · rw [if_pos hhelp]
    exact Or.inl (if_pos hhelp)
  · rw [if_neg hhelp, if_neg (show ¬ (args.getD 0 [] = Flag.HELP ∨ _) from hhelp)]
    split
    · exact Or.inl rfl
    split
    · exact Or.inl rfl
    split
    · exact Or.inl rfl
    split
    · exact Or.inl rfl
    split
    · split
      · exact Or.inl rfl
      · split
        · exact Or.inl rfl
        · exact Or.inr rfl
    · exact Or.inr rfl

/-- What does not pass the check is not run. -/
theorem main_of_refused (h : checkArguments args = if AsksHelp args then 0 else EXIT_USAGE_ERROR)
    (hne : args ≠ []) : main args = .exits (if AsksHelp args then 0 else EXIT_USAGE_ERROR) := by
  have hempty : args.isEmpty = false := List.isEmpty_eq_false_iff.mpr hne
  have hstatus : (0 : ℤ) ≤ if AsksHelp args then 0 else EXIT_USAGE_ERROR := by
    split <;> decide
  rw [main, hempty]
  simp only [Bool.false_eq_true, if_false, h]
  rw [if_pos hstatus]

/-- On every command line `main` runs exactly what the grammar says, the demonstration on the empty
one alone, and else ends with the help or the usage error. Reading an argument never throws. Peers
are a host without a colon, a colon and a port. -/
theorem main_spec (args : List Bytes) :
    (∀ invocation, main args = .runs invocation ↔ CommandLine args invocation) ∧
      ((∀ invocation, ¬ CommandLine args invocation) →
        main args = .exits (if AsksHelp args then 0 else EXIT_USAGE_ERROR)) ∧
      ∀ text peer, parsePeer text = some peer ↔
        peer.host ≠ [] ∧ 58 ∉ peer.host ∧ ∃ digits, text = peer.host ++ 58 :: digits ∧
          parsePort digits = some peer.port := by
  rw [← and_assoc]
  refine ⟨?_, fun _ _ ↦ parsePeer_eq_some_iff⟩
  by_cases hne : args = []
  · subst hne
    have hmain := main_of_commandLine .demonstration
    refine ⟨fun invocation ↦ ⟨fun h ↦ ?_, main_of_commandLine⟩, fun hno ↦ ?_⟩
    · rw [hmain] at h
      cases h
      exact .demonstration
    · exact absurd .demonstration (hno _)
  rcases checkArguments_cases args with hrefused | hchecked
  · have hmain := main_of_refused hrefused hne
    refine ⟨fun invocation ↦ ⟨fun h ↦ ?_, main_of_commandLine⟩, fun _ ↦ hmain⟩
    rw [hmain] at h
    cases h
  · obtain ⟨found, hfound⟩ := exists_commandLine hchecked hne
    have hmain := main_of_commandLine hfound
    refine ⟨fun invocation ↦ ⟨fun h ↦ ?_, main_of_commandLine⟩, fun hno ↦ absurd hfound (hno _)⟩
    rw [hmain] at h
    cases h
    exact hfound

end

end Siliqua.Network
