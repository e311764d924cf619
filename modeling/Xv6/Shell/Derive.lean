import Xv6.Shell.Grammar

namespace Xv6.Shell
open List (append_assoc append_nil cons_append drop_drop flatMap_cons flatMap_nil length_append length_cons map_nil)

-- The parser reads the line through gettoken and peek only. Both are told by the tokens that are
-- left at a pointer.

structure At (line : CString) (s : Nat) (ts : List Token) : Prop where
  inside : s ≤ line.es
  left : lex s (line.chars.drop s) = ts

variable {line : CString} {s ps : Nat} {ts : List Token}

theorem CString.get_drop (line : CString) (s : Nat) : line.get s = (line.chars.drop s).headD 0 := by
  rw [CString.get,List.headD_eq_head?_getD,List.head?_drop,List.getD_eq_getElem?_getD]

theorem CString.drop_cons (rest : line.chars.drop s = c :: cs) : line.get s = c ∧ c ≠ 0 ∧ s+1 ≤ line.es ∧ line.chars.drop (s+1) = cs := by
  have member : c ∈ line.chars := List.mem_of_mem_drop (by rw [rest]; exact (.head _))
  have short := congrArg List.length rest
  rw [List.length_drop,length_cons] at short
  refine ⟨by rw [CString.get_drop,rest]; rfl,fun zero => line.solid (zero ▸ member),by unfold CString.es; omega,?_⟩
  rw [← List.tail_drop,rest]
  rfl

theorem lex_spaces (p : Nat) (l : List UInt8) :
    lex p l = lex (p + (l.takeWhile (strchr whitespace)).length) (l.drop (l.takeWhile (strchr whitespace)).length) := by
  induction l generalizing p with
  | nil => rfl
  | cons c l ih =>
    by_cases space : strchr whitespace c = true
    · rw [List.takeWhile_cons_of_pos space,length_cons,List.drop_succ_cons,lex,if_pos space,ih]
      congr 1
      omega
    · rw [List.takeWhile_cons_of_neg space]
      rfl

theorem CString.scan_inside (ok : UInt8 → Bool) (inside : s ≤ line.es) : line.scan ok s ≤ line.es := by
  have short := (List.takeWhile_sublist ok (l := line.chars.drop s)).length_le
  rw [List.length_drop] at short
  unfold CString.scan CString.es at *
  omega

theorem At.spaces (here : At line s ts) : At line (line.spaces s) ts := by
  refine ⟨CString.scan_inside _ here.inside,?_⟩
  rw [← here.left,lex_spaces s,drop_drop]
  rfl

theorem takeWhile_stop {l : List UInt8} (ok : UInt8 → Bool) (rest : l.drop (l.takeWhile ok).length = c :: cs) : ok c = false := by
  induction l with
  | nil => cases rest
  | cons d l ih =>
    by_cases good : ok d = true
    · rw [List.takeWhile_cons_of_pos good,length_cons,List.drop_succ_cons] at rest
      exact ih rest
    · rw [List.takeWhile_cons_of_neg good,List.length_nil,List.drop_zero,List.cons.injEq] at rest
      rw [← rest.1]
      exact Bool.eq_false_iff.mpr good

theorem CString.scan_stop (ok : UInt8 → Bool) (rest : line.chars.drop (line.scan ok s) = c :: cs) : ok c = false := by
  have behind : (line.chars.drop s).drop ((line.chars.drop s).takeWhile ok).length = c :: cs := by
    rw [drop_drop]
    exact rest
  exact takeWhile_stop ok behind

def Kind.leads (set : List UInt8) : Kind → Bool
  | .word => false
  | .bar => strchr set 124
  | .left => strchr set 40
  | .right => strchr set 41
  | .semi => strchr set 59
  | .amp => strchr set 38
  | .less => strchr set 60
  | .greater => strchr set 62
  | .append => strchr set 62

theorem sign_leads (is : sign c = some kind) (set : List UInt8) : strchr set c = kind.leads set := by
  unfold sign at is
  split_ifs at is with h1 h2 h3 h4 h5 h6 <;> cases is <;> subst_vars <;> rfl

theorem no_sign (none : sign c = none) (other : c ≠ 62) : strchr symbols c = false := by
  unfold sign at none
  split_ifs at none with h1 h2 h3 h4 h5 h6
  simp only [strchr,symbols,List.contains_cons,h1,h2,h3,h4,h5,h6,other,List.contains_nil,Bool.or_false,beq_eq_false_iff_ne,
    ne_eq,not_false_eq_true,Bool.or_eq_false_iff,and_self]

structure TokenAt (line : CString) (s : Nat) (t : Token) (ts : List Token) : Prop where
  token : line.token s = (some t.kind,t.stop)
  start : t.start = s
  rest : At line t.stop ts
  solid : line.get s ≠ 0
  seen : ∀ set, set ⊆ symbols → strchr set (line.get s) = t.kind.leads set

theorem token_spec (here : At line s ts) (stopped : ∀ c cs, line.chars.drop s = c :: cs → strchr whitespace c = false) :
    (ts = [] ∧ s = line.es ∧ line.get s = 0) ∨ ∃ t rest, ts = t :: rest ∧ TokenAt line s t rest := by
  obtain ⟨inside,left⟩ := here
  cases chars : line.chars.drop s with
  | nil =>
    left
    rw [chars,lex] at left
    have long := List.drop_eq_nil_iff.mp chars
    refine ⟨left.symm,Nat.le_antisymm inside long,?_⟩
    rw [CString.get_drop,chars]
    rfl
  | cons c cs =>
    right
    obtain ⟨get,solid,next,tail⟩ := CString.drop_cons chars
    have unspaced : ¬ strchr whitespace c = true := Bool.not_eq_true _ ▸ stopped c cs chars
    rw [chars,lex,if_neg unspaced] at left
    cases is : sign c with
    | some kind =>
      rw [is] at left
      have token : line.token s = (some kind,s+1) := by rw [CString.token,get,if_neg solid,is]
      refine ⟨⟨kind,s,s+1⟩,_,left.symm,token,rfl,⟨next,by rw [tail]⟩,get ▸ solid,fun set _ => ?_⟩
      rw [get]
      exact sign_leads is set
    | none =>
      simp only [is] at left
      by_cases arrow : c = 62
      · have leads : ∀ set, strchr set (line.get s) = strchr set 62 := fun set => by rw [get,arrow]
        have second : line.get (s+1) = cs.headD 0 := by rw [CString.get_drop,tail]
        rw [if_pos arrow] at left
        cases cs with
        | nil =>
          rw [if_neg (by simp only [List.head?_nil,reduceCtorEq,not_false_eq_true])] at left
          have token : line.token s = (some .greater,s+1) := by
            simp only [CString.token,get,if_neg solid,is,if_pos arrow,second,List.headD_nil]
            rfl
          exact ⟨⟨.greater,s,s+1⟩,_,left.symm,token,rfl,⟨next,by rw [tail]⟩,get ▸ solid,fun set _ => leads set⟩
        | cons d ds =>
          obtain ⟨_,_,far,tailD⟩ := CString.drop_cons tail
          by_cases twice : d = 62
          · rw [if_pos (by rw [twice]; rfl)] at left
            have token : line.token s = (some .append,s+2) := by
              simp only [CString.token,get,if_neg solid,is,if_pos arrow,second,List.headD_cons,if_pos twice]
            exact ⟨⟨.append,s,s+2⟩,_,left.symm,token,rfl,⟨far,by rw [tailD]; rfl⟩,get ▸ solid,fun set _ => leads set⟩
          · rw [if_neg (by simp only [List.head?_cons,Option.some.injEq,twice,not_false_eq_true])] at left
            have token : line.token s = (some .greater,s+1) := by
              simp only [CString.token,get,if_neg solid,is,if_pos arrow,second,List.headD_cons,if_neg twice]
            exact ⟨⟨.greater,s,s+1⟩,_,left.symm,token,rfl,⟨next,by rw [tail]⟩,get ▸ solid,fun set _ => leads set⟩
      · have plain := no_sign is arrow
        have scan : line.scan inWord s = s+1 + (cs.takeWhile inWord).length := by
          have good : inWord c = true := by simp only [inWord,stopped c cs chars,plain,Bool.not_false,Bool.and_self]
          rw [CString.scan,chars,List.takeWhile_cons_of_pos good,length_cons]
          omega
        have token : line.token s = (some .word,s+1 + (cs.takeWhile inWord).length) := by
          simp only [CString.token,get,if_neg solid,is,if_neg arrow,scan]
        rw [if_neg arrow] at left
        refine ⟨⟨.word,s,_⟩,_,left.symm,token,rfl,⟨?_,?_⟩,get ▸ solid,fun set subset => ?_⟩
        · rw [← scan]
          exact CString.scan_inside _ inside
        · rw [← drop_drop,tail]
        · rw [get]
          refine Bool.eq_false_iff.mpr fun found => ?_
          have among : strchr symbols c = true := List.contains_iff_mem.mpr (subset (List.contains_iff_mem.mp found))
          rw [plain] at among
          cases among

theorem At.token (here : At line ps ts) : (ts = [] ∧ line.spaces ps = line.es ∧ line.get (line.spaces ps) = 0) ∨
    ∃ t rest, ts = t :: rest ∧ TokenAt line (line.spaces ps) t rest :=
  token_spec here.spaces fun _ _ rest => CString.scan_stop _ rest

theorem peek_at (here : At line ps ts) (toks : List UInt8) : At line (peek line toks ps).2 ts := here.spaces

def leads (toks : List UInt8) : List Token → Bool
  | [] => false
  | t :: _ => t.kind.leads toks

theorem peek_leads (here : At line ps ts) (symbolic : toks ⊆ symbols) : (peek line toks ps).1 = leads toks ts := by
  rcases here.token with ⟨rfl,-,zero⟩ | ⟨t,rest,rfl,token⟩
  · rw [peek,zero]
    rfl
  · simp only [peek,token.seen toks symbolic,leads,bne_iff_ne.mpr token.solid,Bool.true_and]

theorem gettoken_nil (here : At line ps []) : (gettoken line ps).ret = none ∧ At line (gettoken line ps).ps [] := by
  rcases here.token with ⟨-,last,zero⟩ | ⟨t,rest,none,-⟩
  · have token : line.token (line.spaces ps) = (none,line.spaces ps) := by rw [CString.token,if_pos zero]
    simp only [gettoken,token,true_and]
    exact here.spaces.spaces
  · cases none

theorem gettoken_cons (here : At line ps (t :: ts)) : (gettoken line ps).ret = some t.kind ∧ (gettoken line ps).q = t.start ∧
    (gettoken line ps).eq = t.stop ∧ At line (gettoken line ps).ps ts := by
  rcases here.token with ⟨none,-⟩ | ⟨u,rest,same,token⟩
  · cases none
  · cases same
    simp only [gettoken,token.token,token.start,true_and]
    exact token.rest.spaces

-- How a call ends: with a result in P, in a panic only if Q, without fuel only if B.
def Ends (P : α → Prop) (Q B : Prop) : Except Stop α → Prop
  | .ok a => P a
  | .error (.panic _) => Q
  | .error .spent => B

variable {P : α → Prop} {R : β → Prop} {Q B : Prop}

theorem Ends.bind {x : Except Stop α} {next : α → Except Stop β} (first : Ends P Q B x) (then_ : ∀ a, P a → Ends R Q B (next a)) :
    Ends R Q B (x >>= next) := by
  cases x with
  | ok a => exact then_ a first
  | error stop => cases stop <;> exact first

theorem Ends.mono {x : Except Stop α} {P' : α → Prop} {Q' B' : Prop} (ends : Ends P Q B x) (result : ∀ a, P a → P' a) (panic : Q → Q')
    (spent : B → B') : Ends P' Q' B' x := by
  cases x with
  | ok a => exact result a ends
  | error stop =>
    cases stop with
    | panic message => exact panic ends
    | spent => exact spent ends

-- Soundness: what is taken from the line is the token sequence of a derivation, and the result
-- is its tree. The fuel that is enough grows with the tokens left.

theorem redirects_of (kind : Kind) : kind.leads [60,62] = true → Redirects kind := by
  unfold Redirects
  cases kind <;> decide

theorem kind_of (sought : Kind) (only : ∀ kind, kind.leads toks = true → kind = sought) (found : leads toks ts = true) :
    ∃ (t : Tok sought) (rest : List Token), ts = t.val :: rest := by
  cases ts with
  | nil => cases found
  | cons t rest => exact ⟨⟨t,only _ found⟩,rest,rfl⟩

theorem parseredirs_sound (fuel : Nat) (cmd : Cmd) (here : At line ps ts) :
    Ends (fun r => ∃ (rs : List Redir) (rest : List Token), ts = rs.flatMap Redir.yield ++ rest ∧ At line r.2 rest ∧ r.1 = rs.foldl Redir.wrap cmd)
      True (fuel ≤ ts.length) (parseredirs line fuel cmd ps) := by
  induction fuel generalizing cmd ps ts with
  | zero => exact Nat.zero_le _
  | succ fuel ih =>
    have next := peek_at here [60,62]
    rw [parseredirs]
    simp only [peek_leads here (show [60,62] ⊆ symbols by decide)]
    split
    · rename_i found
      cases ts with
      | nil => cases found
      | cons op ts =>
        have tok := gettoken_cons next
        cases ts with
        | nil =>
          rw [if_neg (by rw [(gettoken_nil tok.2.2.2).1]; exact nofun)]
          trivial
        | cons file ts =>
          have name := gettoken_cons tok.2.2.2
          rw [tok.1,name.1,name.2.1,name.2.2.1]
          split
          · rename_i word
            refine (ih (redirect (some op.kind) cmd file.start file.stop) name.2.2.2).mono ?_ id ?_
            · rintro r ⟨rs,rest,rfl,there,tree⟩
              exact ⟨⟨op,⟨file,Option.some.inj word⟩,redirects_of _ found⟩ :: rs,rest,rfl,there,tree⟩
            · intro short
              simp only [length_cons]
              omega
          · trivial
    · exact ⟨[],ts,rfl,next,rfl⟩

theorem redirs_addArg (rs : List Redir) (cmd : Cmd) : (rs.foldl Redir.wrap cmd).addArg q eq = rs.foldl Redir.wrap (cmd.addArg q eq) := by
  induction rs generalizing cmd with
  | nil => rfl
  | cons r rs ih =>
    rw [List.foldl_cons,ih,List.foldl_cons]
    congr 1
    rcases r with ⟨⟨kind,_,_⟩,file,redirects⟩
    rcases redirects with h | h | h <;> cases h <;> rfl

theorem parseargs_sound (fuel : Nat) (rs : List Redir) (ws : List (Nat × Nat)) (argc : Nat) (few : argc ≤ 9) (here : At line ps ts) :
    Ends (fun r => ∃ (args : List Arg) (rest : List Token), ts = args.flatMap Arg.yield ++ rest ∧ At line r.2 rest ∧ argc + args.length ≤ 9 ∧
        r.1 = (rs ++ args.flatMap Arg.redirs).foldl Redir.wrap (.exec (ws ++ args.map Arg.span)))
      True (fuel ≤ ts.length+1) (parseargs line fuel (rs.foldl Redir.wrap (.exec ws)) argc ps) := by
  have none : rs.foldl Redir.wrap (.exec ws) = (rs ++ ([] : List Arg).flatMap Arg.redirs).foldl Redir.wrap (.exec (ws ++ ([] : List Arg).map Arg.span)) := by
    rw [flatMap_nil,append_nil,map_nil,append_nil]
  induction fuel generalizing rs ws argc ps ts with
  | zero => exact Nat.zero_le _
  | succ fuel ih =>
    have next := peek_at here [124,41,38,59]
    rw [parseargs]
    simp only [peek_leads here (show [124,41,38,59] ⊆ symbols by decide)]
    split
    · exact ⟨[],ts,rfl,next,few,none⟩
    cases ts with
    | nil =>
      rw [if_pos (gettoken_nil next).1]
      exact ⟨[],[],rfl,(gettoken_nil next).2,few,none⟩
    | cons t ts =>
      obtain ⟨ret,start,stop,there⟩ := gettoken_cons next
      rw [ret,start,stop,if_neg (Option.some_ne_none _)]
      split
      · trivial
      rename_i word
      rw [not_not,Option.some.injEq] at word
      split
      · trivial
      rename_i room
      rw [redirs_addArg]
      refine Ends.bind ((parseredirs_sound fuel _ there).mono (fun r parsed => parsed) id (fun short => ?_)) ?_
      · simp only [length_cons]
        omega
      rintro r ⟨qs,rest,rfl,after,tree⟩
      have small : argc+1 ≤ 9 := by
        unfold maxargs at room
        omega
      rw [tree,Cmd.addArg,← List.foldl_append]
      refine (ih (rs ++ qs) _ (argc+1) small after ?_).mono ?_ id ?_
      · rw [flatMap_nil,append_nil,map_nil,append_nil]
      · rintro r ⟨args,rest,rfl,final,count,tree⟩
        refine ⟨⟨⟨t,word⟩,qs⟩ :: args,rest,?_,final,?_,?_⟩
        · rw [flatMap_cons,Arg.yield,cons_append,cons_append,append_assoc]
        · rw [length_cons]
          omega
        · rw [tree,flatMap_cons,List.map_cons,append_assoc,append_assoc]
          rfl
      · intro short
        simp only [length_cons,length_append]
        omega

theorem parsebacks_sound (fuel : Nat) (cmd : Cmd) (here : At line ps ts) :
    Ends (fun r => ∃ (backs : List (Tok .amp)) (rest : List Token), ts = marks backs ++ rest ∧ At line r.2 rest ∧
        r.1 = backs.foldl (fun cmd _ => .back cmd) cmd)
      True (fuel ≤ ts.length) (parsebacks line fuel cmd ps) := by
  induction fuel generalizing cmd ps ts with
  | zero => exact Nat.zero_le _
  | succ fuel ih =>
    have next := peek_at here [38]
    rw [parsebacks]
    simp only [peek_leads here (show [38] ⊆ symbols by decide)]
    split
    · rename_i found
      obtain ⟨amp,ts,rfl⟩ := kind_of .amp (by intro kind; cases kind <;> decide) found
      refine (ih (.back cmd) (gettoken_cons next).2.2.2).mono ?_ id ?_
      · rintro r ⟨backs,rest,rfl,there,tree⟩
        exact ⟨amp :: backs,rest,rfl,there,tree⟩
      · intro short
        simp only [length_cons]
        omega
    · exact ⟨[],ts,rfl,next,rfl⟩

def Parsed (line : CString) (yield : α → List Token) (Narrow : α → Prop) (tree : α → Cmd) (ts : List Token) (r : Cmd × Nat) : Prop :=
  ∃ (d : α) (rest : List Token), ts = yield d ++ rest ∧ At line r.2 rest ∧ Narrow d ∧ r.1 = tree d

-- The four functions that call one another, by induction on the fuel.
structure Sound (line : CString) (fuel : Nat) : Prop where
  onLine : ∀ ps ts, At line ps ts → Ends (Parsed line Line.yield Line.Narrow Line.tree ts) True (fuel ≤ 4 * ts.length + 4) (parseline line fuel ps)
  onPipe : ∀ ps ts, At line ps ts → Ends (Parsed line Pipe.yield Pipe.Narrow Pipe.tree ts) True (fuel ≤ 4 * ts.length + 3) (parsepipe line fuel ps)
  onExec : ∀ ps ts, At line ps ts → Ends (Parsed line Exec.yield Exec.Narrow Exec.tree ts) True (fuel ≤ 4 * ts.length + 2) (parseexec line fuel ps)
  onBlock : ∀ ps ts, At line ps ts → leads [40] ts = true → Ends (Parsed line Exec.yield Exec.Narrow Exec.tree ts) True (fuel ≤ 4 * ts.length + 1) (parseblock line fuel ps)

section
variable (ih : Sound line fuel) (here : At line ps ts)
include ih here

theorem parseline_sound : Ends (Parsed line Line.yield Line.Narrow Line.tree ts) True (fuel+1 ≤ 4 * ts.length + 4) (parseline line (fuel+1) ps) := by
  rw [parseline]
  refine Ends.bind ((ih.onPipe ps ts here).mono (fun r parsed => parsed) id (by omega)) ?_
  rintro first ⟨pipe,ts,rfl,here,narrow,treeP⟩
  refine Ends.bind ((parsebacks_sound fuel first.1 here).mono (fun r parsed => parsed) id (by rw [length_append]; omega)) ?_
  rintro cmd ⟨backs,ts,rfl,here,treeB⟩
  have next := peek_at here [59]
  simp only [peek_leads here (show [59] ⊆ symbols by decide)]
  split
  · rename_i found
    obtain ⟨semi,ts,rfl⟩ := kind_of .semi (by intro kind; cases kind <;> decide) found
    have bound : fuel ≤ 4 * ts.length + 4 → fuel+1 ≤ 4 * (pipe.yield ++ (marks backs ++ semi.val :: ts)).length + 4 := by
      simp only [length_append,length_cons]
      omega
    refine Ends.bind ((ih.onLine _ ts (gettoken_cons next).2.2.2).mono (fun r parsed => parsed) id bound) ?_
    rintro more ⟨rest,ts,rfl,here,narrowR,treeR⟩
    refine ⟨.more pipe backs semi rest,ts,?_,here,⟨narrow,narrowR⟩,?_⟩
    · simp only [Line.yield,append_assoc,cons_append]
    · rw [treeB,treeP,treeR,Line.tree]
  · refine ⟨.last pipe backs,ts,?_,next,narrow,?_⟩
    · simp only [Line.yield,append_assoc]
    · rw [treeB,treeP,Line.tree]

theorem parsepipe_sound : Ends (Parsed line Pipe.yield Pipe.Narrow Pipe.tree ts) True (fuel+1 ≤ 4 * ts.length + 3) (parsepipe line (fuel+1) ps) := by
  rw [parsepipe]
  refine Ends.bind ((ih.onExec ps ts here).mono (fun r parsed => parsed) id (by omega)) ?_
  rintro cmd ⟨exec,ts,rfl,here,narrow,treeE⟩
  have next := peek_at here [124]
  simp only [peek_leads here (show [124] ⊆ symbols by decide)]
  split
  · rename_i found
    obtain ⟨bar,ts,rfl⟩ := kind_of .bar (by intro kind; cases kind <;> decide) found
    have bound : fuel ≤ 4 * ts.length + 3 → fuel+1 ≤ 4 * (exec.yield ++ bar.val :: ts).length + 3 := by
      simp only [length_append,length_cons]
      omega
    refine Ends.bind ((ih.onPipe _ ts (gettoken_cons next).2.2.2).mono (fun r parsed => parsed) id bound) ?_
    rintro more ⟨rest,ts,rfl,here,narrowR,treeR⟩
    refine ⟨.more exec bar rest,ts,?_,here,⟨narrow,narrowR⟩,?_⟩
    · simp only [Pipe.yield,append_assoc,cons_append]
    · rw [treeE,treeR,Pipe.tree]
  · exact ⟨.last exec,ts,rfl,next,narrow,treeE⟩

theorem parseexec_sound : Ends (Parsed line Exec.yield Exec.Narrow Exec.tree ts) True (fuel+1 ≤ 4 * ts.length + 2) (parseexec line (fuel+1) ps) := by
  have next := peek_at here [40]
  rw [parseexec]
  simp only [peek_leads here (show [40] ⊆ symbols by decide)]
  split
  · rename_i found
    exact (ih.onBlock _ ts next found).mono (fun r parsed => parsed) id (by omega)
  refine Ends.bind ((parseredirs_sound fuel (.exec []) next).mono (fun r parsed => parsed) id (by omega)) ?_
  rintro ret ⟨redirs,ts,rfl,here,treeR⟩
  rw [treeR]
  refine (parseargs_sound fuel redirs [] 0 (by omega) here).mono ?_ id (by rw [length_append]; omega)
  rintro r ⟨args,rest,rfl,there,count,tree⟩
  refine ⟨.simple redirs args,rest,?_,there,?_,tree⟩
  · rw [Exec.yield,append_assoc]
  · rw [Nat.zero_add] at count
    exact count

theorem parseblock_sound (opens : leads [40] ts = true) : Ends (Parsed line Exec.yield Exec.Narrow Exec.tree ts) True (fuel+1 ≤ 4 * ts.length + 1) (parseblock line (fuel+1) ps) := by
  have next := peek_at here [40]
  rw [parseblock]
  simp only [peek_leads here (show [40] ⊆ symbols by decide)]
  rw [if_pos opens]
  obtain ⟨left,ts,rfl⟩ := kind_of .left (by intro kind; cases kind <;> decide) opens
  have bound : fuel ≤ 4 * ts.length + 4 → fuel+1 ≤ 4 * (left.val :: ts).length + 1 := by
    simp only [length_cons]
    omega
  refine Ends.bind ((ih.onLine _ ts (gettoken_cons next).2.2.2).mono (fun r parsed => parsed) id bound) ?_
  rintro cmd ⟨inner,ts,rfl,here,narrow,treeI⟩
  have after := peek_at here [41]
  simp only [peek_leads here (show [41] ⊆ symbols by decide)]
  split
  · rename_i found
    obtain ⟨right,ts,rfl⟩ := kind_of .right (by intro kind; cases kind <;> decide) found
    have short : fuel ≤ ts.length → fuel+1 ≤ 4 * (left.val :: (inner.yield ++ right.val :: ts)).length + 1 := by
      simp only [length_append,length_cons]
      omega
    refine (parseredirs_sound fuel cmd.1 (gettoken_cons after).2.2.2).mono ?_ id short
    rintro r ⟨redirs,rest,rfl,there,tree⟩
    refine ⟨.block left inner right redirs,rest,?_,there,narrow,?_⟩
    · simp only [Exec.yield,append_assoc,cons_append]
    · rw [tree,treeI,Exec.tree]
  · trivial

end

theorem sound (line : CString) (fuel : Nat) : Sound line fuel := by
  induction fuel with
  | zero =>
    refine ⟨fun _ _ _ => ?_,fun _ _ _ => ?_,fun _ _ _ => ?_,fun _ _ _ _ => ?_⟩
    · rw [parseline]
      exact Nat.zero_le _
    · rw [parsepipe]
      exact Nat.zero_le _
    · rw [parseexec]
      exact Nat.zero_le _
    · rw [parseblock]
      exact Nat.zero_le _
  | succ fuel ih =>
    exact ⟨fun _ _ here => parseline_sound ih here,fun _ _ here => parsepipe_sound ih here,fun _ _ here => parseexec_sound ih here,
      fun _ _ here opens => parseblock_sound ih here opens⟩

-- Completeness: no derivation ends in a panic.

theorem leads_before (before : Before kinds ts) (none : ∀ kind ∈ kinds, kind.leads toks = false) : leads toks ts = false := by
  cases ts with
  | nil => rfl
  | cons t ts => exact none _ before.head

theorem leads_tok (t : Tok kind) (toks : List UInt8) (ts : List Token) : leads toks (t.val :: ts) = kind.leads toks := by
  rw [leads,t.property]

theorem redirects_leads {kind : Kind} (redirects : Redirects kind) : kind.leads [60,62] = true := by
  rcases redirects with rfl | rfl | rfl <;> rfl

theorem parseredirs_complete (fuel : Nat) (cmd : Cmd) (rs : List Redir) (before : Before afterRedirs rest)
    (here : At line ps (rs.flatMap Redir.yield ++ rest)) :
    Ends (fun r => r.1 = rs.foldl Redir.wrap cmd ∧ At line r.2 rest) False True (parseredirs line fuel cmd ps) := by
  induction fuel generalizing cmd ps rs with
  | zero => trivial
  | succ fuel ih =>
    have next := peek_at here [60,62]
    rw [parseredirs]
    simp only [peek_leads here (show [60,62] ⊆ symbols by decide)]
    cases rs with
    | nil =>
      have none : leads [60,62] (List.flatMap Redir.yield [] ++ rest) = false := leads_before before (by decide)
      rw [none]
      exact ⟨rfl,next⟩
    | cons r rs =>
      have found : leads [60,62] ((r :: rs).flatMap Redir.yield ++ rest) = true := redirects_leads r.redirects
      have tok := gettoken_cons next
      have name := gettoken_cons tok.2.2.2
      rw [found,if_pos rfl,tok.1,name.1,name.2.1,name.2.2.1,if_pos (congrArg some r.file.property)]
      exact ih _ rs name.2.2.2

theorem parseargs_complete (fuel : Nat) (rs : List Redir) (ws : List (Nat × Nat)) (argc : Nat) (args : List Arg) (few : argc + args.length ≤ 9)
    (before : Before afterExec rest) (here : At line ps (args.flatMap Arg.yield ++ rest)) :
    Ends (fun r => r.1 = (rs ++ args.flatMap Arg.redirs).foldl Redir.wrap (.exec (ws ++ args.map Arg.span)) ∧ At line r.2 rest)
      False True (parseargs line fuel (rs.foldl Redir.wrap (.exec ws)) argc ps) := by
  induction fuel generalizing rs ws argc ps args with
  | zero => trivial
  | succ fuel ih =>
    have next := peek_at here [124,41,38,59]
    rw [parseargs]
    simp only [peek_leads here (show [124,41,38,59] ⊆ symbols by decide)]
    cases args with
    | nil =>
      rw [flatMap_nil,List.nil_append] at next
      simp only [flatMap_nil,map_nil,append_nil,List.nil_append]
      cases rest with
      | nil =>
        rw [leads,if_neg Bool.false_ne_true,if_pos (gettoken_nil next).1]
        exact ⟨rfl,(gettoken_nil next).2⟩
      | cons t rest =>
        have found : t.kind.leads [124,41,38,59] = true := by
          have among := before.head
          revert among
          cases t.kind <;> decide
        rw [leads,if_pos found]
        exact ⟨rfl,next⟩
    | cons arg args =>
      have none : leads [124,41,38,59] ((arg :: args).flatMap Arg.yield ++ rest) = false := leads_tok arg.word _ _
      simp only [flatMap_cons,Arg.yield,cons_append,append_assoc] at next
      obtain ⟨ret,start,stop,there⟩ := gettoken_cons next
      rw [length_cons] at few
      rw [none,if_neg Bool.false_ne_true,ret,start,stop,if_neg (Option.some_ne_none _),if_neg (not_not.mpr (congrArg some arg.word.property)),
        if_neg (by unfold maxargs; omega),redirs_addArg]
      refine Ends.bind (parseredirs_complete fuel _ arg.redirs (before_args before args) there) ?_
      rintro r ⟨tree,after⟩
      rw [tree,Cmd.addArg,← List.foldl_append]
      refine (ih (rs ++ arg.redirs) _ (argc+1) args (by omega) after).mono ?_ id id
      rintro r ⟨tree,final⟩
      refine ⟨?_,final⟩
      rw [tree,flatMap_cons,List.map_cons,append_assoc,append_assoc]
      rfl

theorem parsebacks_complete (fuel : Nat) (cmd : Cmd) (backs : List (Tok .amp)) (before : Before afterBacks rest)
    (here : At line ps (marks backs ++ rest)) :
    Ends (fun r => r.1 = backs.foldl (fun cmd _ => .back cmd) cmd ∧ At line r.2 rest) False True (parsebacks line fuel cmd ps) := by
  induction fuel generalizing cmd ps backs with
  | zero => trivial
  | succ fuel ih =>
    have next := peek_at here [38]
    rw [parsebacks]
    simp only [peek_leads here (show [38] ⊆ symbols by decide)]
    cases backs with
    | nil =>
      have none : leads [38] (marks [] ++ rest) = false := leads_before before (by decide)
      rw [none]
      exact ⟨rfl,next⟩
    | cons amp backs =>
      have found : leads [38] (marks (amp :: backs) ++ rest) = true := leads_tok amp _ _
      rw [found,if_pos rfl]
      exact ih (.back cmd) backs (gettoken_cons next).2.2.2

structure Complete (line : CString) (fuel : Nat) : Prop where
  onLine : ∀ ps (d : Line) rest, At line ps (d.yield ++ rest) → Before afterLine rest → d.Narrow →
    Ends (fun r => r.1 = d.tree ∧ At line r.2 rest) False True (parseline line fuel ps)
  onPipe : ∀ ps (d : Pipe) rest, At line ps (d.yield ++ rest) → Before afterPipe rest → d.Narrow →
    Ends (fun r => r.1 = d.tree ∧ At line r.2 rest) False True (parsepipe line fuel ps)
  onExec : ∀ ps (d : Exec) rest, At line ps (d.yield ++ rest) → Before afterExec rest → d.Narrow →
    Ends (fun r => r.1 = d.tree ∧ At line r.2 rest) False True (parseexec line fuel ps)
  onBlock : ∀ ps left (d : Line) right redirs rest, At line ps ((Exec.block left d right redirs).yield ++ rest) → Before afterExec rest → d.Narrow →
    Ends (fun r => r.1 = (Exec.block left d right redirs).tree ∧ At line r.2 rest) False True (parseblock line fuel ps)

section
variable (ih : Complete line fuel)
include ih

theorem parseline_complete (d : Line) (here : At line ps (d.yield ++ rest)) (before : Before afterLine rest)
    (narrow : d.Narrow) : Ends (fun r => r.1 = d.tree ∧ At line r.2 rest) False True (parseline line (fuel+1) ps) := by
  rw [parseline]
  cases d with
  | last pipe backs =>
    rw [Line.yield,append_assoc] at here
    refine Ends.bind (ih.onPipe ps pipe _ here (before_marks (afterLine_backs before) backs) narrow) ?_
    rintro first ⟨treeP,here⟩
    refine Ends.bind (parsebacks_complete fuel first.1 backs (afterLine_backs before) here) ?_
    rintro cmd ⟨treeB,here⟩
    have none : leads [59] rest = false := leads_before before (by decide)
    simp only [peek_leads here (show [59] ⊆ symbols by decide),none]
    refine ⟨?_,peek_at here [59]⟩
    rw [treeB,treeP,Line.tree]
  | more pipe backs semi more =>
    rw [Line.yield,append_assoc,append_assoc,cons_append] at here
    refine Ends.bind (ih.onPipe ps pipe _ here (before_marks (before_semi semi _) backs) narrow.1) ?_
    rintro first ⟨treeP,here⟩
    refine Ends.bind (parsebacks_complete fuel first.1 backs (before_semi semi _) here) ?_
    rintro cmd ⟨treeB,here⟩
    have found : leads [59] (semi.val :: (more.yield ++ rest)) = true := leads_tok semi _ _
    simp only [peek_leads here (show [59] ⊆ symbols by decide),found]
    refine Ends.bind (ih.onLine _ more rest (gettoken_cons (peek_at here [59])).2.2.2 before narrow.2) ?_
    rintro last ⟨treeM,there⟩
    refine ⟨?_,there⟩
    rw [treeB,treeP,treeM,Line.tree]

theorem parsepipe_complete (d : Pipe) (here : At line ps (d.yield ++ rest)) (before : Before afterPipe rest)
    (narrow : d.Narrow) : Ends (fun r => r.1 = d.tree ∧ At line r.2 rest) False True (parsepipe line (fuel+1) ps) := by
  rw [parsepipe]
  cases d with
  | last exec =>
    refine Ends.bind (ih.onExec ps exec rest here (afterPipe_exec before) narrow) ?_
    rintro cmd ⟨tree,here⟩
    have none : leads [124] rest = false := leads_before before (by decide)
    simp only [peek_leads here (show [124] ⊆ symbols by decide),none]
    exact ⟨tree,peek_at here [124]⟩
  | more exec bar more =>
    rw [Pipe.yield,append_assoc,cons_append] at here
    refine Ends.bind (ih.onExec ps exec _ here (before_bar bar _) narrow.1) ?_
    rintro cmd ⟨treeE,here⟩
    have found : leads [124] (bar.val :: (more.yield ++ rest)) = true := leads_tok bar _ _
    simp only [peek_leads here (show [124] ⊆ symbols by decide),found]
    refine Ends.bind (ih.onPipe _ more rest (gettoken_cons (peek_at here [124])).2.2.2 before narrow.2) ?_
    rintro last ⟨treeM,there⟩
    refine ⟨?_,there⟩
    rw [treeE,treeM,Pipe.tree]

theorem parseexec_complete (d : Exec) (here : At line ps (d.yield ++ rest)) (before : Before afterExec rest)
    (narrow : d.Narrow) : Ends (fun r => r.1 = d.tree ∧ At line r.2 rest) False True (parseexec line (fuel+1) ps) := by
  have next := peek_at here [40]
  rw [parseexec]
  simp only [peek_leads here (show [40] ⊆ symbols by decide)]
  cases d with
  | block left inner right redirs =>
    have found : leads [40] ((Exec.block left inner right redirs).yield ++ rest) = true := leads_tok left _ _
    rw [found,if_pos rfl]
    exact ih.onBlock _ left inner right redirs rest next before narrow
  | simple redirs args =>
    have none : leads [40] ((Exec.simple redirs args).yield ++ rest) = false := by
      cases tokens : (Exec.simple redirs args).yield ++ rest with
      | nil => rfl
      | cons t ts =>
        have start := simple_start before tokens
        rw [leads]
        revert start
        cases t.kind <;> decide
    rw [none,if_neg Bool.false_ne_true]
    rw [Exec.yield,append_assoc] at next
    refine Ends.bind (parseredirs_complete fuel (.exec []) redirs (before_args before args) next) ?_
    rintro ret ⟨tree,here⟩
    rw [tree]
    refine parseargs_complete fuel redirs [] 0 args ?_ before here
    rw [Nat.zero_add]
    exact narrow

theorem parseblock_complete (left : Tok .left) (d : Line) (right : Tok .right) (redirs : List Redir)
    (here : At line ps ((Exec.block left d right redirs).yield ++ rest)) (before : Before afterExec rest) (narrow : d.Narrow) :
    Ends (fun r => r.1 = (Exec.block left d right redirs).tree ∧ At line r.2 rest) False True (parseblock line (fuel+1) ps) := by
  have next := peek_at here [40]
  have opens : leads [40] ((Exec.block left d right redirs).yield ++ rest) = true := leads_tok left _ _
  rw [parseblock]
  simp only [peek_leads here (show [40] ⊆ symbols by decide),opens]
  rw [Exec.yield,cons_append,append_assoc,cons_append] at next
  refine Ends.bind (ih.onLine _ d _ (gettoken_cons next).2.2.2 (before_right right _) narrow) ?_
  rintro cmd ⟨tree,here⟩
  have closes : leads [41] (right.val :: (redirs.flatMap Redir.yield ++ rest)) = true := leads_tok right _ _
  simp only [peek_leads here (show [41] ⊆ symbols by decide),closes]
  rw [if_pos trivial,Exec.tree,tree]
  exact parseredirs_complete fuel d.tree redirs (afterExec_redirs before) (gettoken_cons (peek_at here [41])).2.2.2

end

theorem complete (line : CString) (fuel : Nat) : Complete line fuel := by
  induction fuel with
  | zero =>
    refine ⟨fun _ _ _ _ _ _ => ?_,fun _ _ _ _ _ _ => ?_,fun _ _ _ _ _ _ => ?_,fun _ _ _ _ _ _ _ _ _ => ?_⟩
    · rw [parseline]
      trivial
    · rw [parsepipe]
      trivial
    · rw [parseexec]
      trivial
    · rw [parseblock]
      trivial
  | succ fuel ih =>
    exact ⟨fun _ d _ => parseline_complete ih d,fun _ d _ => parsepipe_complete ih d,fun _ d _ => parseexec_complete ih d,
      fun _ left d right redirs _ => parseblock_complete ih left d right redirs⟩

end Xv6.Shell
