import Xv6.Shell.Ulib

namespace Xv6.Shell

-- sh.c: the parser. A line is the characters before its NUL, and a pointer into it is an offset;
-- es is the offset of the NUL.

structure CString where
  chars : List UInt8
  solid : 0 ∉ chars

def CString.get (line : CString) (s : Nat) : UInt8 := line.chars.getD s 0

def CString.es (line : CString) : Nat := line.chars.length

def whitespace : List UInt8 := [32,9,13,10,11]

def symbols : List UInt8 := [60,124,62,38,59,40,41]

-- while(s < es && ok(*s)) s++;
def CString.scan (line : CString) (ok : UInt8 → Bool) (s : Nat) : Nat := s + ((line.chars.drop s).takeWhile ok).length

def CString.spaces (line : CString) (s : Nat) : Nat := line.scan (strchr whitespace) s

def inWord (c : UInt8) : Bool := !strchr whitespace c && !strchr symbols c

-- What gettoken returns, but for 0; a word is 'a' there, and >> is '+'.
inductive Kind where
  | word | bar | left | right | semi | amp | less | greater | append
deriving DecidableEq, Repr

structure Got where
  ret : Option Kind
  q : Nat
  eq : Nat
  ps : Nat

-- The signs that gettoken takes without a look at the next character.
def sign (c : UInt8) : Option Kind :=
  if c = 124 then some .bar
  else if c = 40 then some .left
  else if c = 41 then some .right
  else if c = 59 then some .semi
  else if c = 38 then some .amp
  else if c = 60 then some .less
  else none

-- The switch of gettoken.
def CString.token (line : CString) (s : Nat) : Option Kind × Nat :=
  if line.get s = 0 then (none,s)
  else match sign (line.get s) with
    | some kind => (some kind,s+1)
    | none =>
      if line.get s = 62 then
        if line.get (s+1) = 62 then (some .append,s+2) else (some .greater,s+1)
      else (some .word,line.scan inWord s)

def gettoken (line : CString) (ps : Nat) : Got :=
  let q := line.spaces ps
  let t := line.token q
  ⟨t.1,q,t.2,line.spaces t.2⟩

def peek (line : CString) (toks : List UInt8) (ps : Nat) : Bool × Nat :=
  let s := line.spaces ps
  (line.get s != 0 && strchr toks (line.get s),s)

-- argv and eargv up to the first null pointer.
inductive Cmd where
  | exec (argv : List (Nat × Nat))
  | redir (cmd : Cmd) (file efile mode fd : Nat)
  | pipe (left right : Cmd)
  | list (left right : Cmd)
  | back (cmd : Cmd)
deriving DecidableEq, Repr

def redirect (tok : Option Kind) (cmd : Cmd) (q eq : Nat) : Cmd :=
  match tok with
  | some .less => .redir cmd q eq 0 0
  | some .greater => .redir cmd q eq 513 1
  | some .append => .redir cmd q eq 513 1
  | _ => cmd

-- ret is the execcmd cmd inside the redirections so far; this is cmd->argv[argc] = q.
def Cmd.addArg (q eq : Nat) : Cmd → Cmd
  | .exec argv => .exec (argv ++ [(q,eq)])
  | .redir cmd file efile mode fd => .redir (cmd.addArg q eq) file efile mode fd
  | .pipe left right => .pipe left right
  | .list left right => .list left right
  | .back cmd => .back cmd

-- spent is no outcome of the source: the fuel of a call or a loop.
inductive Stop where
  | panic (message : String)
  | spent
deriving DecidableEq, Repr

def maxargs : Nat := 10

def parseredirs (line : CString) : Nat → Cmd → Nat → Except Stop (Cmd × Nat)
  | 0,_,_ => .error .spent
  | fuel+1,cmd,ps =>
    let found := peek line [60,62] ps
    if found.1 then
      let tok := gettoken line found.2
      let file := gettoken line tok.ps
      if file.ret = some .word then parseredirs line fuel (redirect tok.ret cmd file.q file.eq) file.ps
      else .error (.panic "missing file for redirection")
    else .ok (cmd,found.2)

-- The loop of parseexec.
def parseargs (line : CString) : Nat → Cmd → Nat → Nat → Except Stop (Cmd × Nat)
  | 0,_,_,_ => .error .spent
  | fuel+1,ret,argc,ps =>
    let found := peek line [124,41,38,59] ps
    if found.1 then .ok (ret,found.2)
    else
      let tok := gettoken line found.2
      if tok.ret = none then .ok (ret,tok.ps)
      else if tok.ret ≠ some .word then .error (.panic "syntax")
      else if argc+1 ≥ maxargs then .error (.panic "too many args")
      else do
        let next ← parseredirs line fuel (ret.addArg tok.q tok.eq) tok.ps
        parseargs line fuel next.1 (argc+1) next.2

-- The loop of parseline.
def parsebacks (line : CString) : Nat → Cmd → Nat → Except Stop (Cmd × Nat)
  | 0,_,_ => .error .spent
  | fuel+1,cmd,ps =>
    let found := peek line [38] ps
    if found.1 then parsebacks line fuel (.back cmd) (gettoken line found.2).ps
    else .ok (cmd,found.2)

mutual
def parseline (line : CString) : Nat → Nat → Except Stop (Cmd × Nat)
  | 0,_ => .error .spent
  | fuel+1,ps => do
    let first ← parsepipe line fuel ps
    let cmd ← parsebacks line fuel first.1 first.2
    let found := peek line [59] cmd.2
    if found.1 then do
      let rest ← parseline line fuel (gettoken line found.2).ps
      .ok (.list cmd.1 rest.1,rest.2)
    else .ok (cmd.1,found.2)
termination_by structural fuel => fuel

def parsepipe (line : CString) : Nat → Nat → Except Stop (Cmd × Nat)
  | 0,_ => .error .spent
  | fuel+1,ps => do
    let cmd ← parseexec line fuel ps
    let found := peek line [124] cmd.2
    if found.1 then do
      let rest ← parsepipe line fuel (gettoken line found.2).ps
      .ok (.pipe cmd.1 rest.1,rest.2)
    else .ok (cmd.1,found.2)
termination_by structural fuel => fuel

def parseexec (line : CString) : Nat → Nat → Except Stop (Cmd × Nat)
  | 0,_ => .error .spent
  | fuel+1,ps =>
    let found := peek line [40] ps
    if found.1 then parseblock line fuel found.2
    else do
      let ret ← parseredirs line fuel (.exec []) found.2
      parseargs line fuel ret.1 0 ret.2
termination_by structural fuel => fuel

def parseblock (line : CString) : Nat → Nat → Except Stop (Cmd × Nat)
  | 0,_ => .error .spent
  | fuel+1,ps =>
    let opening := peek line [40] ps
    if opening.1 then do
      let cmd ← parseline line fuel (gettoken line opening.2).ps
      let closing := peek line [41] cmd.2
      if closing.1 then parseredirs line fuel cmd.1 (gettoken line closing.2).ps
      else .error (.panic "syntax - missing )")
    else .error (.panic "parseblock")
termination_by structural fuel => fuel
end

def store (m : Nat → UInt8) (s : Nat) : Nat → UInt8 := fun p => if p = s then 0 else m p

def nulterminate (m : Nat → UInt8) : Cmd → Nat → UInt8
  | .exec argv => argv.foldl (fun m arg => store m arg.2) m
  | .redir cmd _ efile _ _ => store (nulterminate m cmd) efile
  | .pipe left right => nulterminate (nulterminate m left) right
  | .list left right => nulterminate (nulterminate m left) right
  | .back cmd => nulterminate m cmd

def CString.memory (line : CString) (behind : Nat → UInt8) : Nat → UInt8 := fun p => if p ≤ line.es then line.get p else behind p

def parsecmd (line : CString) (behind : Nat → UInt8) : Except Stop (Cmd × (Nat → UInt8)) := do
  let cmd ← parseline line (4 * line.es + 5) 0
  let s := (peek line [] cmd.2).2
  if s ≠ line.es then .error (.panic "syntax")
  else .ok (cmd.1,nulterminate (line.memory behind) cmd.1)

end Xv6.Shell
