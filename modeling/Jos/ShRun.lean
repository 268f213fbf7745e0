-- The command buffers of the shell: `runcmd` of `user/sh.c` puts the words of a
-- command into `argv`, and its name with a slash before it into `argv0buf`. What
-- the calls of open, pipe and fork give is not up to it.
import Mathlib
import Jos.Sh

namespace jos.sh

def MAXARGS : Nat := 16
def BUFSIZ : Nat := 1024

/-- A write outside an array. There is one more case, for a command that does not
end. -/
inductive Fault
  | argv (i : Nat)
  | argv0buf (i : Nat)
  | endless
deriving DecidableEq

/-- A pointer in `argv`: to a word of the line, or to `argv0buf` with its string. -/
inductive Str
  | line (off : Nat)
  | argv0buf (path : List Byte)
deriving DecidableEq

/-- How `runcmd` ends, or comes to the call of `spawn`. -/
inductive Ending
  | returned
  | exited
  | panicked
  | spawned (argv : Nat → Option Str)

structure Shell where
  lex : Lexer
  argv : Nat → Option Str
  argc : Nat

/-- The string at an offset of the buffer. -/
def cstring (buf : Nat → Byte) : Nat → Nat → List Byte
  | 0, _ => []
  | left + 1, off => if buf off = 0 then [] else buf off :: cstring buf left (off + 1)

/-- `argv[i] = p` -/
def Shell.set (sh : Shell) (i : Nat) (p : Option Str) : Except Fault Shell :=
  if i < MAXARGS then .ok { sh with argv := Function.update sh.argv i p } else .error (.argv i)

/-- `strcpy(argv0buf + 1, name)`, after the slash. The first index outside the
array is `BUFSIZ`. -/
def slashed (name : List Byte) : Except Fault Str :=
  if name.length + 1 < BUFSIZ then .ok (.argv0buf (47 :: name)) else .error (.argv0buf BUFSIZ)

/-- The name of a command gets a slash if it has none. -/
def Shell.slash (sh : Shell) : Except Fault Shell :=
  match sh.argv 0 with
  | some (.line off) =>
    if sh.lex.buf off ≠ 47 then do
      let path ← slashed (cstring sh.lex.buf (sh.lex.size - off) off)
      sh.set 0 (some path)
    else .ok sh
  | _ => .ok sh

def runit (sh : Shell) : Except Fault Ending :=
  if sh.argc = 0 then .ok .returned
  else do
    let sh ← sh.slash
    let sh ← sh.set sh.argc none
    .ok (.spawned sh.argv)

/-- The loop of `runcmd`. The answers are what open, pipe and fork return. -/
def runcmd_from : Nat → (Nat → Int) → Shell → Except Fault Ending
  | 0, _, _ => .error .endless
  | left + 1, answers, sh =>
    let tok := sh.lex.gettoken
    let sh := { sh with lex := tok.2 }
    if tok.1.1 = word then
      if sh.argc = MAXARGS then .ok .exited
      else do
        let sh ← sh.set sh.argc (tok.1.2.map .line)
        runcmd_from left answers { sh with argc := sh.argc + 1 }
    else if tok.1.1 = 60 ∨ tok.1.1 = 62 then
      let file := sh.lex.gettoken
      if file.1.1 ≠ word then .ok .exited
      else if answers 0 < 0 then .ok .exited
      else runcmd_from left (fun i => answers (i + 1)) { sh with lex := file.2 }
    else if tok.1.1 = 124 then
      if answers 0 < 0 then .ok .exited
      else if answers 1 < 0 then .ok .exited
      -- the child goes on with the command behind the pipe
      else if answers 1 = 0 then runcmd_from left (fun i => answers (i + 2)) { sh with argc := 0 }
      else runit sh
    else if tok.1.1 = 0 then runit sh
    else .ok .panicked

/-- `runcmd(s)` for a line at the start of an array. The pointers are those that
`argv` holds when the function is entered. -/
def runcmd (x : Lexer) (argv : Nat → Option Str) (answers : Nat → Int) : Except Fault Ending :=
  runcmd_from (x.size + 1) answers ⟨x.start, argv, 0⟩

/-! ## The commands of a line -/

/-- The commands that a line comes to run, each with its words. The line ends
early at a word too many, at a redirection to no file, and at a symbol that the
shell does not know. `file` says that the file of a redirection is to come. -/
def commands : List Token → Bool → List Token → List (List Token)
  | [], file, ws => if file then [] else [ws]
  | tok :: rest, file, ws =>
    if file then if tok.kind = word then commands rest false ws else []
    else if tok.kind = word then
      if ws.length = MAXARGS then [] else commands rest false (ws ++ [tok])
    else if tok.kind = 60 ∨ tok.kind = 62 then commands rest true ws
    else if tok.kind = 124 then ws :: commands rest false []
    else []

variable {s : List Byte} {p : Nat} {ws toks : List Token} {sh : Shell} {x : Lexer}

/-- A command that fits the buffers: it has less than `MAXARGS` words, and its name
starts with a slash or leaves room for one and for the NUL. -/
def Short (s : List Byte) (ws : List Token) : Prop :=
  ws = [] ∨ (ws.length < MAXARGS ∧
    ∀ tok ∈ ws.head?, char s tok.start = 47 ∨ tok.stop - tok.start + 1 < BUFSIZ)

/-- All writes are in the arrays, and `argv` is ended by a NULL for `spawn`. -/
def InBounds (result : Except Fault Ending) : Prop :=
  ∃ e, result = .ok e ∧ ∀ argv, e = .spawned argv → ∃ k < MAXARGS, argv k = none

theorem inBounds_ok {e : Ending} (h : ∀ argv, e ≠ .spawned argv) : InBounds (.ok e) :=
  ⟨e, rfl, fun argv he => absurd he (h argv)⟩

theorem not_inBounds_error {f : Fault} : ¬ InBounds (.error f) := by
  rintro ⟨e, ⟨⟩, -⟩

/-- The words so far, and where they stand. -/
structure Gathered (s : List Byte) (p : Nat) (ws : List Token) (sh : Shell) : Prop where
  argc : sh.argc = ws.length
  le : ws.length ≤ MAXARGS
  name : ∀ tok ∈ ws.head?, sh.argv 0 = some (.line tok.start)
  passed : ∀ tok ∈ ws, tok.kind = word ∧ Passed s p tok

theorem Passed.start_lt {tok : Token} (h : Passed s p tok) (hkind : tok.kind = word) :
    tok.start < tok.stop := by
  have hstop := tokenAt_of_word h.token hkind
  have hword : isWord (char s tok.start) = true := by
    rcases of_decide_eq_true h.starts with hsym | ⟨hword, -⟩
    · have htok := h.token
      rw [tokenAt, if_pos hsym] at htok
      rw [htok] at hkind
      dsimp only at hkind
      rw [hkind] at hsym
      exact absurd hsym (by decide)
    · exact hword
  rw [hstop, runEnd_succ hword]
  exact le_runEnd

/-- The length of a string that stands in the buffer. -/
theorem length_cstring {buf : Nat → Byte} {left i j : Nat} (hij : i ≤ j) (hleft : j ≤ i + left)
    (hne : ∀ k, i ≤ k → k < j → buf k ≠ 0) (hend : buf j = 0) :
    (cstring buf left i).length = j - i := by
  induction left generalizing i with
  | zero =>
    obtain rfl : i = j := by omega
    simp [cstring]
  | succ left ih =>
    by_cases h : i = j
    · subst h
      rw [cstring, if_pos hend]
      simp
    · rw [cstring, if_neg (hne i le_rfl (by omega)), List.length_cons,
        ih (by omega) (by omega) fun k hk => hne k (by omega)]
      omega

/-- A command runs in bounds exactly when it is short. -/
theorem runit_inBounds (hs : ∀ c ∈ s, c ≠ 0) (hsize : s.length < sh.lex.size)
    (hp : p ≤ s.length) (hbuf : Agrees s p sh.lex.buf) (h : Gathered s p ws sh) :
    InBounds (runit sh) ↔ Short s ws := by
  cases ws with
  | nil =>
    rw [runit, if_pos (show sh.argc = 0 from h.argc)]
    exact ⟨fun _ => .inl rfl, fun _ => inBounds_ok (by rintro argv ⟨⟩)⟩
  | cons tok ws =>
    obtain ⟨hkind, hpassed⟩ := h.passed tok (List.mem_cons_self ..)
    have hstands := hpassed.stands hkind hbuf hp
    have hlt := hpassed.start_lt hkind
    have hname := h.name tok rfl
    have hle : tok.stop ≤ s.length := by
      have := hpassed.past
      omega
    have hlen : (cstring sh.lex.buf (sh.lex.size - tok.start) tok.start).length =
        tok.stop - tok.start := by
      refine length_cstring hlt.le (by omega) (fun k hk hk' => ?_) hstands.2
      rw [hstands.1 k hk hk']
      exact char_ne_zero hs (by omega)
    have hfirst : sh.lex.buf tok.start = char s tok.start := hstands.1 _ le_rfl hlt
    have hargc : sh.argc ≠ 0 := by
      rw [h.argc]
      exact Nat.succ_ne_zero _
    -- the end of `argv`, whatever its first entry is
    have hset : ∀ argv₁, InBounds ((Shell.set { sh with argv := argv₁ } sh.argc none).bind
        fun sh => .ok (.spawned sh.argv)) ↔ (tok :: ws).length < MAXARGS := by
      intro argv₁
      rw [Shell.set, h.argc]
      by_cases hfit : (tok :: ws).length < MAXARGS
      · rw [if_pos hfit]
        refine ⟨fun _ => hfit, fun _ => ⟨_, rfl, ?_⟩⟩
        rintro _ ⟨⟩
        exact ⟨_, hfit, Function.update_self ..⟩
      · rw [if_neg hfit]
        exact ⟨fun h => absurd h not_inBounds_error, fun h => absurd h hfit⟩
    have hshort : Short s (tok :: ws) ↔ (tok :: ws).length < MAXARGS ∧
        (char s tok.start = 47 ∨ tok.stop - tok.start + 1 < BUFSIZ) := by
      constructor
      · rintro (h | ⟨h₁, h₂⟩)
        · cases h
        · exact ⟨h₁, h₂ tok rfl⟩
      · rintro ⟨h₁, h₂⟩
        refine .inr ⟨h₁, ?_⟩
        rintro _ ⟨⟩
        exact h₂
    rw [hshort, runit, if_neg hargc]
    by_cases hslash : char s tok.start = 47
    · have hsl : sh.slash = .ok sh := by
        rw [Shell.slash, hname]
        exact if_neg (by rw [hfirst, hslash]; exact fun h => h rfl)
      rw [hsl]
      exact (hset sh.argv).trans ⟨fun h => ⟨h, .inl hslash⟩, fun h => h.1⟩
    · have hsl : sh.slash = (slashed (cstring sh.lex.buf (sh.lex.size - tok.start) tok.start)).bind
          fun path => sh.set 0 (some path) := by
        rw [Shell.slash, hname]
        exact if_pos (by rw [hfirst]; exact hslash)
      rw [hsl, slashed, hlen]
      by_cases hroom : tok.stop - tok.start + 1 < BUFSIZ
      · rw [if_pos hroom]
        exact (hset _).trans ⟨fun h => ⟨h, .inr hroom⟩, fun h => h.1⟩
      · rw [if_neg hroom]
        refine ⟨fun h => absurd h not_inBounds_error, fun h => ?_⟩
        rcases h.2 with h | h
        · exact absurd h hslash
        · exact absurd h hroom

theorem Gathered.mono {q : Nat} (h : Gathered s p ws sh) (hpq : p ≤ q) (lex : Lexer) :
    Gathered s q ws { sh with lex := lex } :=
  ⟨h.argc, h.le, h.name, fun tok ht => ⟨(h.passed tok ht).1, (h.passed tok ht).2.mono hpq⟩⟩

/-- One more word. -/
theorem Gathered.add {tok : Token} (h : Gathered s p ws sh) (hlt : ws.length < MAXARGS)
    (hkind : tok.kind = word) (hpassed : Passed s p tok) :
    Gathered s p (ws ++ [tok]) { sh with
      argv := Function.update sh.argv sh.argc (some (.line tok.start))
      argc := sh.argc + 1 } := by
  refine ⟨?_, ?_, fun w hw => ?_, fun w hw => ?_⟩
  · rw [List.length_append, List.length_singleton, h.argc]
  · rw [List.length_append, List.length_singleton]
    exact hlt
  · cases ws with
    | nil =>
      obtain rfl : tok = w := Option.some.inj hw
      have hzero : sh.argc = 0 := h.argc
      dsimp only
      rw [hzero, Function.update_self]
    | cons v ws =>
      have hne : 0 ≠ sh.argc := by
        rw [h.argc]
        exact (Nat.succ_ne_zero _).symm
      exact (Function.update_of_ne hne ..).trans (h.name w hw)
  · rcases List.mem_append.mp hw with hw | hw
    · exact h.passed w hw
    · rw [List.mem_singleton] at hw
      rw [hw]
      exact ⟨hkind, hpassed⟩

theorem gathered_nil (h : sh.argc = 0) : Gathered s p [] sh :=
  ⟨h, Nat.zero_le _, by rintro tok ⟨⟩, by rintro tok ⟨⟩⟩

theorem tokenAt_kind_ne {i : Nat} : (tokenAt s i).kind ≠ 0 := by
  by_cases hsym : isSymbol (char s i) = true
  · rw [tokenAt, if_pos hsym]
    intro hzero
    dsimp only at hzero
    rw [hzero] at hsym
    exact absurd hsym (by decide)
  · rw [tokenAt, if_neg hsym]
    exact (by decide : word ≠ 0)

/-- The first token of those ahead. -/
theorem Ahead.head {tok : Token} (hs : ∀ c ∈ s, c ≠ 0) (h : Ahead s p (tok :: toks) x) :
    x.gettoken.1 = (tok.kind, some tok.start) ∧
    tok.kind ≠ 0 ∧
    ∃ q, p ≤ q ∧ Ahead s q toks x.gettoken.2 ∧ (tok.kind = word → Passed s q tok) := by
  obtain ⟨-, htok, q, hpq, hahead, hpast⟩ := h.gettoken hs
  obtain ⟨h₁, h₂, h₃⟩ := htok tok rfl
  refine ⟨h₁, ?_, q, hpq, hahead, fun hkind => ⟨h₂, h₃, hpast tok rfl hkind⟩⟩
  rw [h₂]
  exact tokenAt_kind_ne

/-- One more answer before the others. -/
def answered (a : Int) (answers : Nat → Int) : Nat → Int
  | 0 => a
  | i + 1 => answers i

/-- The loop runs in bounds, whatever the calls return, exactly when all commands
that it comes to are short. -/
theorem runcmd_from_inBounds (hs : ∀ c ∈ s, c ≠ 0) {left : Nat} (hlex : Ahead s p toks sh.lex)
    (hleft : toks.length < left) (h : Gathered s p ws sh) :
    (∀ answers, InBounds (runcmd_from left answers sh)) ↔
      ∀ c ∈ commands toks false ws, Short s c := by
  induction left generalizing p toks ws sh with
  | zero => omega
  | succ left ih =>
    cases toks with
    | nil =>
      obtain ⟨hend, -, q, hpq, hahead, -⟩ := hlex.gettoken hs
      have hrun : ∀ answers, runcmd_from (left + 1) answers sh =
          runit { sh with lex := sh.lex.gettoken.2 } := fun answers => by
        rw [runcmd_from, hend rfl]
        rfl
      have hiff := runit_inBounds hs hahead.size hahead.le hahead.buf
        (h.mono hpq sh.lex.gettoken.2)
      simp only [hrun, hiff, commands, Bool.false_eq_true, if_false, List.mem_singleton, forall_eq]
      exact ⟨fun h => h fun _ => 0, fun h _ => h⟩
    | cons tok toks =>
      obtain ⟨htok, hne, q, hpq, hahead, hpassed⟩ := hlex.head hs
      have h' := h.mono hpq sh.lex.gettoken.2
      have hleft' : toks.length < left := by
        rw [List.length_cons] at hleft
        omega
      rw [commands, if_neg Bool.false_ne_true]
      by_cases hword : tok.kind = word
      · rw [if_pos hword]
        by_cases hfull : ws.length = MAXARGS
        · -- too many arguments
          rw [if_pos hfull]
          refine ⟨fun _ c hc => absurd hc (List.not_mem_nil), fun _ answers => ?_⟩
          rw [runcmd_from, htok]
          dsimp only
          rw [if_pos hword, if_pos (h.argc.trans hfull)]
          exact inBounds_ok (by rintro argv ⟨⟩)
        · rw [if_neg hfull]
          have hlt : ws.length < MAXARGS := lt_of_le_of_ne h.le hfull
          have hrun : ∀ answers, runcmd_from (left + 1) answers sh =
              runcmd_from left answers ⟨sh.lex.gettoken.2,
                Function.update sh.argv sh.argc (some (.line tok.start)), sh.argc + 1⟩ := by
            intro answers
            rw [runcmd_from, htok]
            dsimp only
            rw [if_pos hword, if_neg (by rw [h.argc]; exact hfull), Shell.set,
              if_pos (by rw [h.argc]; exact hlt)]
            rfl
          simp only [hrun]
          exact ih hahead hleft' (h'.add hlt hword (hpassed hword))
      rw [if_neg hword]
      by_cases hredir : tok.kind = 60 ∨ tok.kind = 62
      · rw [if_pos hredir]
        have hrun : ∀ answers, runcmd_from (left + 1) answers sh =
            if sh.lex.gettoken.2.gettoken.1.1 ≠ word then .ok .exited
            else if answers 0 < 0 then .ok .exited
            else runcmd_from left (fun i => answers (i + 1))
              { sh with lex := sh.lex.gettoken.2.gettoken.2 } := by
          intro answers
          rw [runcmd_from, htok]
          dsimp only
          rw [if_neg hword, if_pos hredir]
        simp only [hrun]
        cases toks with
        | nil =>
          obtain ⟨hend, -⟩ := hahead.gettoken hs
          rw [hend rfl, commands, if_pos rfl]
          refine ⟨fun _ c hc => absurd hc (List.not_mem_nil), fun _ answers => ?_⟩
          rw [if_pos (by decide)]
          exact inBounds_ok (by rintro argv ⟨⟩)
        | cons file toks =>
          obtain ⟨hfile, -, q', hqq', hahead', -⟩ := hahead.head hs
          rw [hfile, commands, if_pos rfl]
          dsimp only
          by_cases hfw : file.kind = word
          · rw [if_pos hfw]
            have hih : (∀ answers, InBounds (runcmd_from left answers
                { sh with lex := sh.lex.gettoken.2.gettoken.2 })) ↔
                  ∀ c ∈ commands toks false ws, Short s c :=
              ih hahead' (by rw [List.length_cons] at hleft'; omega) (h.mono (hpq.trans hqq') _)
            rw [← hih]
            constructor
            · intro hall answers
              have := hall (answered 0 answers)
              rw [if_neg (fun hne => hne hfw)] at this
              exact this
            · intro hall answers
              rw [if_neg (fun hne => hne hfw)]
              split
              · exact inBounds_ok (by rintro argv ⟨⟩)
              · exact hall _
          · rw [if_neg hfw]
            refine ⟨fun _ c hc => absurd hc (List.not_mem_nil), fun _ answers => ?_⟩
            rw [if_pos hfw]
            exact inBounds_ok (by rintro argv ⟨⟩)
      rw [if_neg hredir]
      by_cases hpipe : tok.kind = 124
      · rw [if_pos hpipe]
        have hrun : ∀ answers, runcmd_from (left + 1) answers sh =
            if answers 0 < 0 then .ok .exited
            else if answers 1 < 0 then .ok .exited
            else if answers 1 = 0 then runcmd_from left (fun i => answers (i + 2))
              ⟨sh.lex.gettoken.2, sh.argv, 0⟩
            else runit { sh with lex := sh.lex.gettoken.2 } := by
          intro answers
          rw [runcmd_from, htok]
          dsimp only
          rw [if_neg hword, if_neg hredir, if_pos hpipe]
        have hiff := runit_inBounds hs hahead.size hahead.le hahead.buf h'
        have hih : (∀ answers, InBounds (runcmd_from left answers
            ⟨sh.lex.gettoken.2, sh.argv, 0⟩)) ↔ ∀ c ∈ commands toks false [], Short s c :=
          ih hahead hleft' (gathered_nil rfl)
        simp only [List.mem_cons, forall_eq_or_imp, ← hiff, ← hih]
        constructor
        · intro hall
          constructor
          · have := hall (answered 0 fun _ => 1)
            rw [hrun] at this
            exact this
          · intro answers
            have := hall (answered 0 (answered 0 answers))
            rw [hrun] at this
            exact this
        · rintro ⟨h₁, h₂⟩ answers
          rw [hrun]
          split
          · exact inBounds_ok (by rintro argv ⟨⟩)
          · split
            · exact inBounds_ok (by rintro argv ⟨⟩)
            · split
              · exact h₂ _
              · exact h₁
      · rw [if_neg hpipe]
        refine ⟨fun _ c hc => absurd hc (List.not_mem_nil), fun _ answers => ?_⟩
        rw [runcmd_from, htok]
        dsimp only
        rw [if_neg hword, if_neg hredir, if_neg hpipe, if_neg hne]
        exact inBounds_ok (by rintro argv ⟨⟩)

theorem length_tokens_le : (tokens s).length ≤ s.length := by
  have h := List.length_filter_le (starts s) (List.range' 0 (s.length - 0))
  rw [List.length_range'] at h
  rw [tokens, tokensFrom, List.length_map]
  exact h

/-- `runcmd` writes into its arrays only, and gives `spawn` a terminated `argv`,
whatever the calls that it makes return, exactly when every command of the line
has less than `MAXARGS` words and a name that fits `argv0buf`. -/
theorem command_buffers_hold_short_commands (hs : ∀ c ∈ s, c ≠ 0) (hsize : s.length < x.size)
    (hbuf : ∀ i ≤ s.length, x.buf i = char s i) (argv : Nat → Option Str) :
    (∀ answers, InBounds (runcmd x argv answers)) ↔
      ∀ c ∈ commands (tokens s) false [], Short s c := by
  obtain ⟨p, hahead, -⟩ := Lexer.after_ahead hs hsize hbuf 0
  have hlen := length_tokens_le (s := s)
  show (∀ answers, InBounds (runcmd_from (x.size + 1) answers ⟨x.start, argv, 0⟩)) ↔ _
  exact runcmd_from_inBounds hs hahead (show (tokens s).length < x.size + 1 by omega)
    (gathered_nil rfl)

theorem command_buffers_hold_short_commands_lsWc :
    commands (tokens lsWc) false [] = [[⟨word, 0, 2⟩], [⟨word, 3, 5⟩]] ∧
    InBounds (runcmd ⟨6, char lsWc, 0, none, none⟩ (fun _ => none) fun _ => 0) := by
  have hcommands : commands (tokens lsWc) false [] = [[⟨word, 0, 2⟩], [⟨word, 3, 5⟩]] := by decide
  refine ⟨hcommands, (command_buffers_hold_short_commands (s := lsWc) (by decide) (by decide)
    (fun _ _ => rfl) _).mpr ?_ _⟩
  rw [hcommands]
  intro c hc
  rcases List.mem_cons.mp hc with rfl | hc
  · exact .inr ⟨by decide, by rintro _ ⟨⟩; decide⟩
  · rw [List.mem_singleton] at hc
    rw [hc]
    exact .inr ⟨by decide, by rintro _ ⟨⟩; decide⟩

/-- A line of 16 words with one letter each. -/
def sixteenWords : List Byte := (List.replicate 16 [97, 32]).flatten

/-- It has 16 words, no word too many for the check, and no room for the NULL. -/
theorem command_overruns_argv :
    (∀ c ∈ sixteenWords, c ≠ 0) ∧ sixteenWords.length ≤ 1023 ∧
    ¬ InBounds (runcmd ⟨1024, char sixteenWords, 0, none, none⟩ (fun _ => none) fun _ => 0) := by
  have hrun : runcmd ⟨1024, char sixteenWords, 0, none, none⟩ (fun _ => none) (fun _ => 0) =
      .error (.argv 16) := rfl
  refine ⟨by decide, by decide, ?_⟩
  rw [hrun]
  exact not_inBounds_error

end jos.sh
