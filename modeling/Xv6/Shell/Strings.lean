import Xv6.Shell.Derive

namespace Xv6.Shell

-- nulterminate puts a NUL behind every string of the tree. Such a place is in no word, so that
-- no string loses a character.

variable {line : CString} {s : Nat} {ts : List Token}

def Cmd.spans : Cmd → List (Nat × Nat)
  | .exec argv => argv
  | .redir cmd file efile _ _ => (file,efile) :: cmd.spans
  | .pipe left right => left.spans ++ right.spans
  | .list left right => left.spans ++ right.spans
  | .back cmd => cmd.spans

theorem exec_eq (m : Nat → UInt8) (argv : List (Nat × Nat)) (p : Nat) :
    argv.foldl (fun m arg => store m arg.2) m p = if p ∈ argv.map Prod.snd then 0 else m p := by
  induction argv generalizing m with
  | nil => rfl
  | cons arg argv ih =>
    rw [List.foldl_cons,ih,List.map_cons,store]
    by_cases here : p = arg.2
    · rw [if_pos here,ite_self,if_pos (List.mem_cons.mpr (.inl here))]
    · simp only [List.mem_cons,here,false_or,reduceIte]

theorem nulterminate_eq (m : Nat → UInt8) (cmd : Cmd) (p : Nat) :
    nulterminate m cmd p = if p ∈ cmd.spans.map Prod.snd then 0 else m p := by
  induction cmd generalizing m with
  | exec argv => exact exec_eq m argv p
  | redir cmd file efile mode fd ih =>
    rw [nulterminate,store,ih,Cmd.spans,List.map_cons]
    by_cases here : p = efile
    · rw [if_pos here,if_pos (List.mem_cons.mpr (.inl here))]
    · simp only [List.mem_cons,here,false_or,reduceIte]
  | pipe left right ihL ihR | list left right ihL ihR =>
    rw [nulterminate,ihR,ihL,Cmd.spans,List.map_append]
    by_cases here : p ∈ right.spans.map Prod.snd
    · rw [if_pos here,if_pos (List.mem_append.mpr (.inr here))]
    · simp only [List.mem_append,here,or_false,reduceIte]
  | back cmd ih => exact ih m

def InWord (line : CString) (p : Nat) : Prop := p < line.es ∧ inWord (line.get p) = true

structure WordAt (line : CString) (t : Token) : Prop where
  stop : t.start ≤ t.stop ∧ t.stop ≤ line.es
  chars : ∀ p, t.start ≤ p → p < t.stop → InWord line p
  behind : ¬ InWord line t.stop

theorem CString.scan_chars (ok : UInt8 → Bool) (low : s ≤ p) (high : p < line.scan ok s) : p < line.es ∧ ok (line.get p) = true := by
  have short : p - s < ((line.chars.drop s).takeWhile ok).length := by
    unfold CString.scan at high
    omega
  have small : p - s < (line.chars.drop s).length := Nat.lt_of_lt_of_le short (List.takeWhile_sublist ok).length_le
  have inside : p < line.es := by
    rw [List.length_drop] at small
    unfold CString.es
    omega
  have same : line.get p = ((line.chars.drop s).takeWhile ok).get ⟨p-s,short⟩ := by
    have initial : (line.chars.drop s).takeWhile ok <+: line.chars.drop s := List.takeWhile_prefix ok
    rw [List.get_eq_getElem,initial.getElem short,List.getElem_drop,CString.get,List.getD_eq_getElem?_getD,List.getElem?_eq_getElem inside]
    simp only [Nat.add_sub_cancel' low,Option.getD_some]
    rfl
  rw [same]
  exact ⟨inside,List.all_eq_true.mp List.all_takeWhile _ (List.get_mem ..)⟩

theorem CString.scan_behind (line : CString) (s : Nat) : ¬ InWord line (line.scan inWord s) := by
  rintro ⟨inside,good⟩
  cases rest : line.chars.drop (line.scan inWord s) with
  | nil =>
    have long := List.drop_eq_nil_iff.mp rest
    unfold CString.es at inside
    omega
  | cons c cs =>
    rw [(CString.drop_cons rest).1,CString.scan_stop inWord rest] at good
    cases good

theorem sign_word : sign c ≠ some .word := by
  unfold sign
  split_ifs <;> exact nofun

theorem token_word (token : line.token s = (some .word,e)) : e = line.scan inWord s := by
  unfold CString.token at token
  split at token
  · cases token
  split at token
  · rename_i kind is
    cases token
    exact absurd is sign_word
  · split at token
    · split at token <;> cases token
    · exact (congrArg Prod.snd token).symm

theorem words_at (here : At line s ts) : ∀ t ∈ ts, t.kind = .word → WordAt line t := by
  induction ts generalizing s with
  | nil => exact fun t none => nomatch none
  | cons u ts ih =>
    rcases here.token with ⟨none,-⟩ | ⟨v,rest,same,token⟩
    · cases none
    cases same
    intro t member word
    rcases List.mem_cons.mp member with rfl | later
    · have spelled := token.token
      rw [word] at spelled
      have stop := token_word spelled
      rw [← token.start] at stop
      refine ⟨⟨?_,token.rest.inside⟩,fun p low high => ?_,?_⟩
      · rw [stop]
        exact Nat.le_add_right ..
      · rw [stop] at high
        exact CString.scan_chars inWord low high
      · rw [stop]
        exact CString.scan_behind line _
    · exact ih token.rest t later word

-- The pointers of a tree are those of words in the tokens of its derivation.
def FromWords (ts : List Token) (spans : List (Nat × Nat)) : Prop := ∀ span ∈ spans, ∃ t ∈ ts, t.kind = .word ∧ span = (t.start,t.stop)

theorem FromWords.mono (words : FromWords ts spans) (subset : ts ⊆ us) : FromWords us spans := fun span member => by
  obtain ⟨t,among,word,same⟩ := words span member
  exact ⟨t,subset among,word,same⟩

theorem FromWords.append (left : FromWords ts spans) (right : FromWords ts more) : FromWords ts (spans ++ more) := fun span member =>
  (List.mem_append.mp member).elim (left span) (right span)

theorem wrap_spans (cmd : Cmd) (r : Redir) : (r.wrap cmd).spans = (r.file.val.start,r.file.val.stop) :: cmd.spans := by
  rcases r with ⟨⟨kind,_,_⟩,file,redirects⟩
  rcases redirects with h | h | h <;> cases h <;> rfl

theorem redirs_words (rs : List Redir) (inner : FromWords ts cmd.spans) (among : rs.flatMap Redir.yield ⊆ ts) :
    FromWords ts (rs.foldl Redir.wrap cmd).spans := by
  induction rs generalizing cmd with
  | nil => exact inner
  | cons r rs ih =>
    have parts := List.append_subset.mp among
    refine ih ?_ parts.2
    rw [wrap_spans]
    intro span member
    rcases List.mem_cons.mp member with rfl | old
    · exact ⟨r.file.val,parts.1 (by simp only [Redir.yield,List.mem_cons,true_or,or_true]),r.file.property,rfl⟩
    · exact inner span old

theorem backs_spans (backs : List (Tok .amp)) (cmd : Cmd) : (backs.foldl (fun cmd _ => .back cmd) cmd).spans = cmd.spans := by
  induction backs generalizing cmd with
  | nil => rfl
  | cons _ backs ih => exact ih (.back cmd)

mutual
theorem Line.words : ∀ d : Line, FromWords d.yield d.tree.spans
  | .last pipe backs => by
    rw [Line.tree,backs_spans,Line.yield]
    exact (Pipe.words pipe).mono (List.subset_append_left ..)
  | .more pipe backs semi rest => by
    rw [Line.tree,Cmd.spans,backs_spans,Line.yield]
    refine ((Pipe.words pipe).mono (List.subset_append_left ..)).append ((Line.words rest).mono ?_)
    intro t member
    exact List.mem_append.mpr (.inr (List.mem_append.mpr (.inr (List.mem_cons.mpr (.inr member)))))

theorem Pipe.words : ∀ d : Pipe, FromWords d.yield d.tree.spans
  | .last exec => by
    rw [Pipe.tree,Pipe.yield]
    exact Exec.words exec
  | .more exec bar rest => by
    rw [Pipe.tree,Cmd.spans,Pipe.yield]
    refine ((Exec.words exec).mono (List.subset_append_left ..)).append ((Pipe.words rest).mono ?_)
    intro t member
    exact List.mem_append.mpr (.inr (List.mem_cons.mpr (.inr member)))

theorem Exec.words : ∀ d : Exec, FromWords d.yield d.tree.spans
  | .block left line right redirs => by
    rw [Exec.tree,Exec.yield]
    refine redirs_words redirs ((Line.words line).mono ?_) ?_
    · exact fun t member => List.mem_cons.mpr (.inr (List.mem_append.mpr (.inl member)))
    · exact fun t member => List.mem_cons.mpr (.inr (List.mem_append.mpr (.inr (List.mem_cons.mpr (.inr member)))))
  | .simple redirs args => by
    rw [Exec.tree,Exec.yield]
    refine redirs_words _ ?_ ?_
    · rintro span member
      obtain ⟨arg,among,rfl⟩ := List.mem_map.mp member
      exact ⟨arg.word.val,List.mem_append.mpr (.inr (List.mem_flatMap.mpr ⟨arg,among,.head _⟩)),arg.word.property,rfl⟩
    rw [List.flatMap_append]
    refine List.append_subset.mpr ⟨List.subset_append_left ..,fun t member => List.mem_append.mpr (.inr ?_)⟩
    obtain ⟨r,inside,within⟩ := List.mem_flatMap.mp member
    obtain ⟨arg,among,mine⟩ := List.mem_flatMap.mp inside
    exact List.mem_flatMap.mpr ⟨arg,among,List.mem_cons.mpr (.inr (List.mem_flatMap.mpr ⟨r,mine,within⟩))⟩
end

def Token.text (line : CString) (t : Token) : List UInt8 := (line.chars.drop t.start).take (t.stop - t.start)

theorem nulterminate_reads (words : FromWords line.tokens cmd.spans) (behind : Nat → UInt8) : ∀ span ∈ cmd.spans, ∃ t ∈ line.tokens,
    t.kind = .word ∧ span = (t.start,t.stop) ∧ Reads (nulterminate (line.memory behind) cmd) t.start (t.text line) := by
  have whole : At line 0 line.tokens := ⟨Nat.zero_le _,rfl⟩
  intro span member
  obtain ⟨t,among,word,same⟩ := words span member
  have spelled := words_at whole t among word
  have long : (t.text line).length = t.stop - t.start := by
    have stop := spelled.stop
    unfold CString.es at stop
    rw [Token.text,List.length_take,List.length_drop]
    omega
  refine ⟨t,among,word,same,fun i less => ?_,fun zero => line.solid (List.mem_of_mem_drop (List.mem_of_mem_take zero)),?_⟩
  · rw [long] at less
    have kept : t.start + i ∉ cmd.spans.map Prod.snd := by
      intro ends
      obtain ⟨other,listed,here⟩ := List.mem_map.mp ends
      obtain ⟨u,amongU,wordU,rfl⟩ := words other listed
      have stop : u.stop = t.start + i := here
      refine (words_at whole u amongU wordU).behind ?_
      rw [stop]
      exact spelled.chars _ (by omega) (by omega)
    have inside := (spelled.chars (t.start + i) (by omega) (by omega)).1
    rw [nulterminate_eq,if_neg kept,CString.memory,if_pos (Nat.le_of_lt inside),Token.text]
    simp only [CString.get,List.getD_eq_getElem?_getD,List.getElem?_take,less,reduceIte,List.getElem?_drop]
  · rw [long,Nat.add_sub_cancel' spelled.stop.1,nulterminate_eq,if_pos]
    exact List.mem_map.mpr ⟨span,member,by rw [same]⟩

theorem lex_length (p : Nat) (l : List UInt8) : (lex p l).length ≤ l.length := by
  fun_induction lex p l with
  | case1 => exact Nat.le_refl _
  | case2 p c cs space ih => exact Nat.le_succ_of_le ih
  | case3 p c cs _ kind is ih => exact Nat.succ_le_succ ih
  | case4 p cs _ _ twice ih =>
    rw [List.length_tail] at ih
    simp only [List.length_cons]
    omega
  | case5 p cs _ _ _ ih => exact Nat.succ_le_succ ih
  | case6 p c cs _ _ _ more ih =>
    rw [List.length_drop] at ih
    simp only [List.length_cons]
    omega

theorem CString.get_es (line : CString) : line.get line.es = 0 := by
  rw [CString.get,List.getD_eq_getElem?_getD,CString.es,List.getElem?_eq_none (Nat.le_refl _)]
  rfl

theorem leftovers_iff (here : At line s ts) : (peek line [] s).2 = line.es ↔ ts = [] := by
  rcases here.token with ⟨rfl,last,-⟩ | ⟨t,rest,rfl,token⟩
  · exact iff_of_true last rfl
  · refine iff_of_false (fun last => token.solid ?_) (List.cons_ne_nil _ _)
    have spaces : line.spaces s = line.es := last
    rw [spaces]
    exact line.get_es

inductive Verdict (line : CString) (behind : Nat → UInt8) : Except Stop (Cmd × (Nat → UInt8)) → Prop where
  | parsed (d : Line) (yields : d.yield = line.tokens) (narrow : d.Narrow) : Verdict line behind (.ok (d.tree,nulterminate (line.memory behind) d.tree))
  | refused (message : String) (none : ∀ d : Line, d.yield = line.tokens → ¬ d.Narrow) : Verdict line behind (.error (.panic message))

theorem parsecmd_verdict (line : CString) (behind : Nat → UInt8) : Verdict line behind (parsecmd line behind) := by
  have whole : At line 0 line.tokens := ⟨Nat.zero_le _,rfl⟩
  have short : line.tokens.length ≤ line.es := lex_length 0 line.chars
  have sounds := (sound line (4 * line.es + 5)).onLine 0 line.tokens whole
  have completes : ∀ d : Line, d.yield = line.tokens → d.Narrow →
      Ends (fun r => r.1 = d.tree ∧ At line r.2 []) False True (parseline line (4 * line.es + 5) 0) := by
    intro d yields narrow
    refine (complete line _).onLine 0 d [] ?_ (Before.nil _) narrow
    rw [List.append_nil,yields]
    exact whole
  unfold parsecmd
  cases result : parseline line (4 * line.es + 5) 0 with
  | error stop =>
    rw [result] at sounds completes
    cases stop with
    | panic message => exact .refused message completes
    | spent =>
      have spent : 4 * line.es + 5 ≤ 4 * line.tokens.length + 4 := sounds
      omega
  | ok r =>
    rw [result] at sounds completes
    obtain ⟨d,rest,yields,here,narrow,tree⟩ := sounds
    show Verdict line behind (if (peek line [] r.2).2 ≠ line.es then .error (.panic "syntax") else .ok (r.1,nulterminate (line.memory behind) r.1))
    simp only [ne_eq,leftovers_iff here]
    split
    · rename_i leftovers
      refine .refused _ fun e same thin => leftovers ?_
      rw [← here.left,(completes e same thin).2.left]
    rename_i done
    rw [not_not] at done
    rw [done,List.append_nil] at yields
    rw [tree]
    exact .parsed d yields.symm narrow

-- parsecmd returns on the derivable lines and panics on all others; the tree is that of the one
-- derivation, and its strings are the words of the line.
theorem parsecmd_exact (line : CString) (behind : Nat → UInt8) :
    ((∃ r, parsecmd line behind = .ok r) ↔ ∃ d : Line, d.yield = line.tokens ∧ d.Narrow) ∧
    ((∃ r, parsecmd line behind = .ok r) ∨ ∃ message, parsecmd line behind = .error (.panic message)) ∧
    ∀ cmd m, parsecmd line behind = .ok (cmd,m) → ∃ d : Line, d.yield = line.tokens ∧ cmd = d.tree ∧ (∀ e : Line, e.yield = line.tokens → e = d) ∧
      ∀ span ∈ cmd.spans, ∃ t ∈ line.tokens, t.kind = .word ∧ span = (t.start,t.stop) ∧ Reads m t.start (t.text line) := by
  have verdict := parsecmd_verdict line behind
  generalize parsecmd line behind = outcome at verdict
  cases verdict with
  | parsed d yields narrow =>
    refine ⟨iff_of_true ⟨_,rfl⟩ ⟨d,yields,narrow⟩,.inl ⟨_,rfl⟩,?_⟩
    rintro cmd m same
    cases same
    refine ⟨d,yields,rfl,fun e other => Line.yield_injective e d (other.trans yields.symm),nulterminate_reads ?_ behind⟩
    exact yields ▸ d.words
  | refused message none =>
    refine ⟨iff_of_false (fun ⟨_,same⟩ => nomatch same) fun ⟨d,yields,narrow⟩ => none d yields narrow,.inr ⟨message,rfl⟩,?_⟩
    intro cmd m same
    cases same

end Xv6.Shell
