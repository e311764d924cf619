import Xv6.Shell.Parser

namespace Xv6.Shell
open List (append_assoc cons_append flatMap_cons)

-- The grammar of the shell, with its derivations as data:
--   line := pipe '&'* [';' line]        pipe := exec ['|' pipe]
--   exec := '(' line ')' redir* | redir* (word redir*)*        redir := ('<' | '>' | '>>') word

structure Token where
  kind : Kind
  start : Nat
  stop : Nat

def lex (p : Nat) : List UInt8 → List Token
  | [] => []
  | c :: cs =>
    if strchr whitespace c then lex (p+1) cs
    else match sign c with
      | some kind => ⟨kind,p,p+1⟩ :: lex (p+1) cs
      | none =>
        if c = 62 then
          if cs.head? = some 62 then ⟨.append,p,p+2⟩ :: lex (p+2) cs.tail
          else ⟨.greater,p,p+1⟩ :: lex (p+1) cs
        else
          let more := (cs.takeWhile inWord).length
          ⟨.word,p,p+1+more⟩ :: lex (p+1+more) (cs.drop more)
termination_by cs => cs.length
decreasing_by all_goals simp only [List.length_cons,List.length_tail,List.length_drop]; omega

def CString.tokens (line : CString) : List Token := lex 0 line.chars

def Redirects (kind : Kind) : Prop := kind = .less ∨ kind = .greater ∨ kind = .append

abbrev Tok (kind : Kind) := {t : Token // t.kind = kind}

structure Redir where
  op : Token
  file : Tok .word
  redirects : Redirects op.kind

structure Arg where
  word : Tok .word
  redirs : List Redir

mutual
inductive Line where
  | last (pipe : Pipe) (backs : List (Tok .amp))
  | more (pipe : Pipe) (backs : List (Tok .amp)) (semi : Tok .semi) (rest : Line)

inductive Pipe where
  | last (exec : Exec)
  | more (exec : Exec) (bar : Tok .bar) (rest : Pipe)

inductive Exec where
  | block (left : Tok .left) (line : Line) (right : Tok .right) (redirs : List Redir)
  | simple (redirs : List Redir) (args : List Arg)
end

def Redir.yield (r : Redir) : List Token := [r.op,r.file.val]

def Arg.yield (a : Arg) : List Token := a.word.val :: a.redirs.flatMap Redir.yield

def marks (backs : List (Tok .amp)) : List Token := backs.map Subtype.val

mutual
def Line.yield : Line → List Token
  | .last pipe backs => pipe.yield ++ marks backs
  | .more pipe backs semi rest => pipe.yield ++ (marks backs ++ semi.val :: rest.yield)

def Pipe.yield : Pipe → List Token
  | .last exec => exec.yield
  | .more exec bar rest => exec.yield ++ bar.val :: rest.yield

def Exec.yield : Exec → List Token
  | .block left line right redirs => left.val :: (line.yield ++ right.val :: redirs.flatMap Redir.yield)
  | .simple redirs args => redirs.flatMap Redir.yield ++ args.flatMap Arg.yield
end

-- The tree of a derivation: the first redirection is the innermost.

def Redir.wrap (cmd : Cmd) (r : Redir) : Cmd := redirect (some r.op.kind) cmd r.file.val.start r.file.val.stop

def Arg.span (a : Arg) : Nat × Nat := (a.word.val.start,a.word.val.stop)

mutual
def Line.tree : Line → Cmd
  | .last pipe backs => backs.foldl (fun cmd _ => .back cmd) pipe.tree
  | .more pipe backs _ rest => .list (backs.foldl (fun cmd _ => .back cmd) pipe.tree) rest.tree

def Pipe.tree : Pipe → Cmd
  | .last exec => exec.tree
  | .more exec _ rest => .pipe exec.tree rest.tree

def Exec.tree : Exec → Cmd
  | .block _ line _ redirs => redirs.foldl Redir.wrap line.tree
  | .simple redirs args => (redirs ++ args.flatMap Arg.redirs).foldl Redir.wrap (.exec (args.map Arg.span))
end

mutual
def Line.Narrow : Line → Prop
  | .last pipe _ => pipe.Narrow
  | .more pipe _ _ rest => pipe.Narrow ∧ rest.Narrow

def Pipe.Narrow : Pipe → Prop
  | .last exec => exec.Narrow
  | .more exec _ rest => exec.Narrow ∧ rest.Narrow

def Exec.Narrow : Exec → Prop
  | .block _ line _ _ => line.Narrow
  | .simple _ args => args.length ≤ 9
end

-- The grammar is unambiguous: a part ends where the next token is none that could go on with it.

def Before (kinds : List Kind) (ts : List Token) : Prop := ∀ t rest, ts = t :: rest → t.kind ∈ kinds

def afterLine : List Kind := [.right]
def afterBacks : List Kind := [.semi,.right]
def afterPipe : List Kind := [.amp,.semi,.right]
def afterExec : List Kind := [.bar,.amp,.semi,.right]

def afterRedirs : List Kind := .word :: .left :: afterExec

theorem Before.nil (kinds : List Kind) : Before kinds [] := fun _ _ none => nomatch none

theorem Before.cons (among : t.kind ∈ kinds) (rest : List Token) : Before kinds (t :: rest) := by
  intro u more same
  cases same
  exact among

theorem Before.mono (before : Before few ts) (subset : few ⊆ many) : Before many ts := fun t rest same => subset (before t rest same)

theorem Before.head (before : Before kinds (t :: rest)) : t.kind ∈ kinds := before t rest rfl

theorem redirects_not_after (redirects : Redirects kind) : kind ∉ afterRedirs := by
  rcases redirects with rfl | rfl | rfl <;> decide

theorem before_marks (before : Before afterBacks r) (backs : List (Tok .amp)) : Before afterPipe (marks backs ++ r) := by
  cases backs with
  | nil => exact before.mono (by decide)
  | cons amp backs => exact Before.cons (by rw [amp.property]; decide) _

theorem before_args (before : Before afterExec r) (args : List Arg) : Before afterRedirs (args.flatMap Arg.yield ++ r) := by
  cases args with
  | nil => exact before.mono (by decide)
  | cons arg args => exact Before.cons (by rw [arg.word.property]; decide) _

theorem redirs_unique {rs qs : List Redir} (same : rs.flatMap Redir.yield ++ r = qs.flatMap Redir.yield ++ q)
    (endR : Before afterRedirs r) (endQ : Before afterRedirs q) : rs = qs ∧ r = q := by
  induction rs generalizing qs with
  | nil =>
    cases qs with
    | nil => exact ⟨rfl,same⟩
    | cons y qs =>
      have head := endR _ _ same
      exact absurd head (redirects_not_after y.redirects)
  | cons x rs ih =>
    cases qs with
    | nil =>
      have head := endQ _ _ same.symm
      exact absurd head (redirects_not_after x.redirects)
    | cons y qs =>
      obtain ⟨op,file,redirects⟩ := x
      obtain ⟨opY,fileY,redirectsY⟩ := y
      simp only [flatMap_cons,Redir.yield,cons_append,List.nil_append,List.cons.injEq] at same
      obtain ⟨rfl,files,rest⟩ := same
      obtain rfl := Subtype.ext files
      obtain ⟨rfl,tails⟩ := ih rest
      exact ⟨rfl,tails⟩

theorem args_unique {as bs : List Arg} (same : as.flatMap Arg.yield ++ r = bs.flatMap Arg.yield ++ q)
    (endR : Before afterExec r) (endQ : Before afterExec q) : as = bs ∧ r = q := by
  have noWord : ∀ a : Arg, a.word.val.kind ∉ afterExec := fun a => by
    rw [a.word.property]
    decide
  induction as generalizing bs with
  | nil =>
    cases bs with
    | nil => exact ⟨rfl,same⟩
    | cons b bs => exact absurd (endR _ _ same) (noWord b)
  | cons a as ih =>
    cases bs with
    | nil => exact absurd (endQ _ _ same.symm) (noWord a)
    | cons b bs =>
      obtain ⟨word,redirs⟩ := a
      obtain ⟨wordB,redirsB⟩ := b
      simp only [flatMap_cons,Arg.yield,cons_append,append_assoc,List.cons.injEq] at same
      obtain ⟨words,rest⟩ := same
      obtain rfl := Subtype.ext words
      obtain ⟨rfl,more⟩ := redirs_unique rest (before_args endR as) (before_args endQ bs)
      obtain ⟨rfl,tails⟩ := ih more
      exact ⟨rfl,tails⟩

theorem marks_unique {as bs : List (Tok .amp)} (same : marks as ++ r = marks bs ++ q)
    (endR : Before afterBacks r) (endQ : Before afterBacks q) : as = bs ∧ r = q := by
  have noMark : ∀ a : Tok .amp, a.val.kind ∉ afterBacks := fun a => by
    rw [a.property]
    decide
  induction as generalizing bs with
  | nil =>
    cases bs with
    | nil => exact ⟨rfl,same⟩
    | cons b bs => exact absurd (endR _ _ same) (noMark b)
  | cons a as ih =>
    cases bs with
    | nil => exact absurd (endQ _ _ same.symm) (noMark a)
    | cons b bs =>
      simp only [marks,List.map_cons,cons_append,List.cons.injEq] at same
      obtain ⟨heads,rest⟩ := same
      obtain rfl := Subtype.ext heads
      obtain ⟨rfl,tails⟩ := ih rest
      exact ⟨rfl,tails⟩

theorem simple_start (before : Before afterExec r) {redirs : List Redir} {args : List Arg}
    (same : (Exec.simple redirs args).yield ++ r = t :: ts) : t.kind ≠ .left := by
  intro left
  rw [Exec.yield,append_assoc] at same
  cases redirs with
  | nil =>
    cases args with
    | nil =>
      have head := before _ _ same
      rw [left] at head
      revert head
      decide
    | cons a args =>
      simp only [List.flatMap_nil,flatMap_cons,Arg.yield,List.nil_append,cons_append,List.cons.injEq] at same
      rw [← same.1,a.word.property] at left
      cases left
  | cons x redirs =>
    simp only [flatMap_cons,Redir.yield,cons_append,List.cons.injEq] at same
    have redirects := x.redirects
    rw [same.1,left] at redirects
    rcases redirects with less | greater | append
    · cases less
    · cases greater
    · cases append

theorem before_semi (semi : Tok .semi) (ts : List Token) : Before afterBacks (semi.val :: ts) :=
  Before.cons (by rw [semi.property]; decide) ts

theorem not_semi (before : Before afterLine (t :: ts)) : t.kind ≠ .semi := fun semi => by
  have head := before.head
  rw [semi] at head
  revert head
  decide

theorem before_bar (bar : Tok .bar) (ts : List Token) : Before afterExec (bar.val :: ts) :=
  Before.cons (by rw [bar.property]; decide) ts

theorem not_bar (before : Before afterPipe (t :: ts)) : t.kind ≠ .bar := fun bar => by
  have head := before.head
  rw [bar] at head
  revert head
  decide

theorem before_right (right : Tok .right) (ts : List Token) : Before afterLine (right.val :: ts) :=
  Before.cons (by rw [right.property]; decide) ts

theorem afterLine_backs : Before afterLine r → Before afterBacks r := fun before => before.mono (by decide)

theorem afterPipe_exec : Before afterPipe r → Before afterExec r := fun before => before.mono (by decide)

theorem afterExec_redirs : Before afterExec r → Before afterRedirs r := fun before => before.mono (by decide)

mutual
theorem Line.unique : ∀ (d e : Line), d.yield ++ r = e.yield ++ q → Before afterLine r → Before afterLine q → d = e ∧ r = q
  | .last pipe backs,.last pipeE backsE => by
    intro same endR endQ
    simp only [Line.yield,append_assoc] at same
    obtain ⟨rfl,tails⟩ := Pipe.unique pipe pipeE same (before_marks (afterLine_backs endR) _) (before_marks (afterLine_backs endQ) _)
    obtain ⟨rfl,rest⟩ := marks_unique tails (afterLine_backs endR) (afterLine_backs endQ)
    exact ⟨rfl,rest⟩
  | .last pipe backs,.more pipeE backsE semiE restE => by
    intro same endR endQ
    simp only [Line.yield,append_assoc,cons_append] at same
    obtain ⟨-,tails⟩ := Pipe.unique pipe pipeE same (before_marks (afterLine_backs endR) _) (before_marks (before_semi _ _) _)
    obtain ⟨-,rfl⟩ := marks_unique tails (afterLine_backs endR) (before_semi _ _)
    exact absurd semiE.property (not_semi endR)
  | .more pipe backs semi rest,.last pipeE backsE => by
    intro same endR endQ
    simp only [Line.yield,append_assoc,cons_append] at same
    obtain ⟨-,tails⟩ := Pipe.unique pipe pipeE same (before_marks (before_semi _ _) _) (before_marks (afterLine_backs endQ) _)
    obtain ⟨-,rfl⟩ := marks_unique tails (before_semi _ _) (afterLine_backs endQ)
    exact absurd semi.property (not_semi endQ)
  | .more pipe backs semi rest,.more pipeE backsE semiE restE => by
    intro same endR endQ
    simp only [Line.yield,append_assoc,cons_append] at same
    obtain ⟨rfl,tails⟩ := Pipe.unique pipe pipeE same (before_marks (before_semi _ _) _) (before_marks (before_semi _ _) _)
    obtain ⟨rfl,more⟩ := marks_unique tails (before_semi _ _) (before_semi _ _)
    rw [List.cons.injEq] at more
    obtain rfl := Subtype.ext more.1
    obtain ⟨rfl,final⟩ := Line.unique rest restE more.2 endR endQ
    exact ⟨rfl,final⟩

theorem Pipe.unique : ∀ (d e : Pipe), d.yield ++ r = e.yield ++ q → Before afterPipe r → Before afterPipe q → d = e ∧ r = q
  | .last exec,.last execE => by
    intro same endR endQ
    simp only [Pipe.yield] at same
    obtain ⟨rfl,rest⟩ := Exec.unique exec execE same (afterPipe_exec endR) (afterPipe_exec endQ)
    exact ⟨rfl,rest⟩
  | .last exec,.more execE barE restE => by
    intro same endR endQ
    simp only [Pipe.yield,append_assoc,cons_append] at same
    obtain ⟨-,rfl⟩ := Exec.unique exec execE same (afterPipe_exec endR) (before_bar _ _)
    exact absurd barE.property (not_bar endR)
  | .more exec bar rest,.last execE => by
    intro same endR endQ
    simp only [Pipe.yield,append_assoc,cons_append] at same
    obtain ⟨-,rfl⟩ := Exec.unique exec execE same (before_bar _ _) (afterPipe_exec endQ)
    exact absurd bar.property (not_bar endQ)
  | .more exec bar rest,.more execE barE restE => by
    intro same endR endQ
    simp only [Pipe.yield,append_assoc,cons_append] at same
    obtain ⟨rfl,more⟩ := Exec.unique exec execE same (before_bar _ _) (before_bar _ _)
    rw [List.cons.injEq] at more
    obtain rfl := Subtype.ext more.1
    obtain ⟨rfl,final⟩ := Pipe.unique rest restE more.2 endR endQ
    exact ⟨rfl,final⟩

theorem Exec.unique : ∀ (d e : Exec), d.yield ++ r = e.yield ++ q → Before afterExec r → Before afterExec q → d = e ∧ r = q
  | .block left line right redirs,.block leftE lineE rightE redirsE => by
    intro same endR endQ
    simp only [Exec.yield,append_assoc,cons_append,List.cons.injEq] at same
    obtain rfl := Subtype.ext same.1
    obtain ⟨rfl,more⟩ := Line.unique line lineE same.2 (before_right _ _) (before_right _ _)
    rw [List.cons.injEq] at more
    obtain rfl := Subtype.ext more.1
    obtain ⟨rfl,final⟩ := redirs_unique more.2 (afterExec_redirs endR) (afterExec_redirs endQ)
    exact ⟨rfl,final⟩
  | .block left line right redirs,.simple redirsE argsE => by
    intro same _ endQ
    rw [Exec.yield,cons_append] at same
    exact absurd left.property (simple_start endQ same.symm)
  | .simple redirs args,.block leftE lineE rightE redirsE => by
    intro same endR _
    rw [Exec.yield.eq_1,cons_append] at same
    exact absurd leftE.property (simple_start endR same)
  | .simple redirs args,.simple redirsE argsE => by
    intro same endR endQ
    simp only [Exec.yield,append_assoc] at same
    obtain ⟨rfl,more⟩ := redirs_unique same (before_args endR _) (before_args endQ _)
    obtain ⟨rfl,final⟩ := args_unique more endR endQ
    exact ⟨rfl,final⟩
end

theorem Line.yield_injective (d e : Line) (same : d.yield = e.yield) : d = e :=
  (Line.unique d e (congrArg (· ++ []) same) (Before.nil _) (Before.nil _)).1

end Xv6.Shell
