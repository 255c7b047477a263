import Xv6Containers.Shell.Parser

/-!
# The parser accepts its grammar

The parsing functions see the command only through its tokens. They are sound: what a
function has read when it returns is a derivation of its tree. They are complete: on a
derivation, followed by a token that cannot continue it, a function returns the tree of
the derivation. With fuel for the tokens that are left they neither run out of fuel nor
write outside `argv`.
-/

namespace Xv6Containers.Shell

open Lib.Memory Lib.Strings

variable {es : Nat}

/-! ## Looking at the first token -/

variable {o : Op} {ps : List Byte} {ts us vs : List Token} {rs : List Redir} {ws : List Span}
  {ops : List Op} {c : Cmd}

/-- Only `>` and `>>` begin with the same character. -/
theorem Op.eq_of_char {o' : Op} (ho : o ≠ .gt ∧ o ≠ .append) (h : o'.char = o.char) : o' = o := by
  revert ho h
  cases o <;> cases o' <;> decide

theorem opChar_not_word (o : Op) : ∀ c ∈ [o.char], isWord c = false :=
  List.forall_mem_singleton.mpr o.not_isWord

theorem peek_of_head {toks : List Byte} (htoks : ∀ c ∈ toks, isWord c = false)
    (h : tokens es ps = .op o :: ts) (ho : o.char ∈ toks) : (peek ps toks).1 = true := by
  apply (peek_iff es htoks).mpr
  exact ⟨o, ho, by rw [h]; rfl⟩

theorem head_of_peek (es : Nat) {toks : List Byte} (htoks : ∀ c ∈ toks, isWord c = false)
    (h : (peek ps toks).1 = true) : ∃ o ts, o.char ∈ toks ∧ tokens es ps = .op o :: ts := by
  obtain ⟨o, ho, hhead⟩ := (peek_iff es htoks).mp h
  obtain ⟨ts, hts⟩ := List.head?_eq_some_iff.mp hhead
  exact ⟨o, ts, ho, hts⟩

theorem gettoken_op (h : tokens es ps = .op o :: ts) :
    (gettoken es ps).kind = .op o ∧ tokens es (gettoken es ps).ps = ts := by
  obtain ⟨htoken, hts⟩ := gettoken_of_cons h
  refine ⟨?_, hts⟩
  rw [Lexed.token] at htoken
  split at htoken
  · cases htoken
  · next o' hkind =>
    cases htoken
    exact hkind
  · cases htoken

theorem gettoken_word {w : Span} (h : tokens es ps = .word w :: ts) :
    (gettoken es ps).kind = .word ∧ (gettoken es ps).span = w ∧
      tokens es (gettoken es ps).ps = ts := by
  obtain ⟨htoken, hts⟩ := gettoken_of_cons h
  rw [Lexed.token] at htoken
  split at htoken
  · cases htoken
  · cases htoken
  · next hkind =>
    cases htoken
    exact ⟨hkind, rfl, hts⟩

/-- The token that `gettoken` reads when it returns `'a'`. -/
theorem tokens_of_kind_word (h : (gettoken es ps).kind = .word) :
    tokens es ps = .word (gettoken es ps).span :: tokens es (gettoken es ps).ps := by
  rw [tokens_eq, Lexed.token, h]

theorem tokens_of_kind_eof (h : (gettoken es ps).kind = .eof) : tokens es ps = [] := by
  rw [tokens_eq, Lexed.token, h]

/-- After `peek` has seen the operator `o` and `gettoken` has taken it. -/
theorem tokens_taken (es : Nat) (ho : o ≠ .gt ∧ o ≠ .append) (h : (peek ps [o.char]).1 = true) :
    tokens es ps = .op o :: tokens es (gettoken es (peek ps [o.char]).2).ps := by
  obtain ⟨o', ts, hmem, hts⟩ := head_of_peek es (opChar_not_word o) h
  obtain rfl := Op.eq_of_char ho (List.mem_singleton.mp hmem)
  have hskip := tokens_peek es ps [o'.char]
  obtain ⟨_, hrest⟩ := gettoken_op (hskip.trans hts)
  rw [hrest, hts]

/-! ## Redirections -/

theorem redirChars_not_word : ∀ c ∈ [Op.lt.char, Op.gt.char], isWord c = false := by
  decide +kernel

/-- The operators that `parseredirs` looks for are those that it knows. -/
theorem redirOf_isSome (h : o.char ∈ [Op.lt.char, Op.gt.char]) (w : Span) :
    ∃ r, redirOf (.op o) w = some r := by
  cases o with
  | lt => exact ⟨_, rfl⟩
  | gt => exact ⟨_, rfl⟩
  | append => exact ⟨_, rfl⟩
  | bar | lparen | rparen | semi | amp => exact absurd h (by decide)

theorem char_of_redirOf {w : Span} {r : Redir} (h : redirOf (.op o) w = some r) :
    o.char ∈ [Op.lt.char, Op.gt.char] := by
  cases o with
  | lt => decide
  | gt => decide
  | append => decide
  | bar | lparen | rparen | semi | amp => cases h

theorem redirsLoop_meets {fuel : Nat} (hfuel : (tokens es ps).length < fuel) :
    (redirsLoop es fuel ps).Meets fun r =>
      ∃ us, Redirs us r.1 ∧ tokens es ps = us ++ tokens es r.2 := by
  induction fuel generalizing ps with
  | zero => omega
  | succ fuel ih =>
    rw [redirsLoop]
    dsimp only
    split
    · next hpeek =>
      obtain ⟨o, ts, ho, hts⟩ := head_of_peek es redirChars_not_word hpeek
      have hskip := tokens_peek es ps [Op.lt.char, Op.gt.char]
      generalize (peek ps [Op.lt.char, Op.gt.char]).2 = ps' at hskip ⊢
      obtain ⟨hkind, hrest⟩ := gettoken_op (hskip.trans hts)
      split
      · trivial
      · next hword =>
        have hfile := tokens_of_kind_word (not_not.mp hword)
        generalize gettoken es (gettoken es ps').ps = file at hfile ⊢
        obtain ⟨r, hr⟩ := redirOf_isSome ho file.span
        rw [hrest] at hfile
        rw [hts, hfile] at hfuel
        simp only [List.length_cons] at hfuel
        refine (ih (by omega)).bind ?_
        rintro ⟨rs, ps''⟩ ⟨us, hus, hsplit⟩
        refine ⟨.op o :: .word file.span :: us, ?_, ?_⟩
        · rw [hkind, hr]
          exact .cons hr hus
        · rw [hts, hfile, hsplit]
          rfl
    · exact ⟨[], .nil, (tokens_peek es ps [Op.lt.char, Op.gt.char]).symm⟩

/-! ## Simple commands -/

theorem argvOf_append (ws : List Span) (w : Span) (h : ws.length < maxargs) :
    (argvOf ws).write ws.length (some w) = .ok (argvOf (ws ++ [w])) := by
  rw [Argv.write, dif_pos h]
  congr 1
  funext i
  by_cases hi : i = ⟨ws.length, h⟩
  · subst hi
    simp [argvOf]
  · have hne : i.val ≠ ws.length := fun hval => hi (Fin.ext hval)
    rw [Function.update_of_ne hi, argvOf, argvOf, List.getElem?_append]
    split
    · rfl
    · rw [List.getElem?_eq_none (by omega), List.getElem?_eq_none (by simp; omega)]

theorem argvOf_close (ws : List Span) (h : ws.length < maxargs) :
    (argvOf ws).write ws.length none = .ok (argvOf ws) := by
  rw [Argv.write, dif_pos h]
  congr 1
  rw [Function.update_eq_self_iff]
  exact (List.getElem?_eq_none le_rfl).symm

theorem stopChars_not_word :
    ∀ c ∈ [Op.bar.char, Op.rparen.char, Op.amp.char, Op.semi.char], isWord c = false := by
  decide +kernel

/-- Redirections in front of a simple command. -/
theorem Items.redirs {qs : List Redir} (hus : Redirs us qs) (hts : Items ts ws rs) :
    Items (us ++ ts) ws (qs ++ rs) := by
  induction hus with
  | nil => exact hts
  | cons hr _ ih => exact .redir hr ih

theorem argsLoop_meets {fuel : Nat} (hws : ws.length < maxargs)
    (hfuel : (tokens es ps).length < fuel) :
    (argsLoop es fuel ws.length (argvOf ws) rs ps).Meets fun r =>
      ∃ us vs qs, Items us vs qs ∧ tokens es ps = us ++ tokens es r.2.2 ∧
        r.1 = argvOf (ws ++ vs) ∧ r.2.1 = rs ++ qs ∧ (ws ++ vs).length ≤ maxargs - 1 := by
  induction fuel generalizing ps ws rs with
  | zero => omega
  | succ fuel ih =>
    rw [argsLoop]
    dsimp only
    have hskip := tokens_peek es ps [Op.bar.char, Op.rparen.char, Op.amp.char, Op.semi.char]
    have hend {ps' : List Byte} (hps : tokens es ps = tokens es ps') :
        ∃ us vs qs, Items us vs qs ∧ tokens es ps = us ++ tokens es ps' ∧
          argvOf ws = argvOf (ws ++ vs) ∧ rs = rs ++ qs ∧ (ws ++ vs).length ≤ maxargs - 1 := by
      refine ⟨[], [], [], .nil, hps, ?_, ?_, ?_⟩
      · rw [List.append_nil]
      · rw [List.append_nil]
      · rw [List.append_nil]
        omega
    generalize (peek ps [Op.bar.char, Op.rparen.char, Op.amp.char, Op.semi.char]) = p at hskip ⊢
    split
    · rw [argvOf_close ws hws]
      exact hend hskip.symm
    · split
      · next heof =>
        have hnil := tokens_of_kind_eof heof
        rw [argvOf_close ws hws]
        apply hend
        rw [(gettoken_of_nil hnil).2, ← hnil, hskip]
      · split
        · trivial
        · next hword =>
          have htok := tokens_of_kind_word (not_not.mp hword)
          generalize gettoken es p.2 = tok at htok ⊢
          rw [argvOf_append ws tok.span hws, Outcome.ok_bind]
          rw [hskip] at htok
          rw [htok, List.length_cons] at hfuel
          split
          · trivial
          · next hroom =>
            refine (redirsLoop_meets (by omega)).bind ?_
            rintro ⟨qs, ps'⟩ ⟨us, hus, hsplit⟩
            have hlen : (ws ++ [tok.span]).length = ws.length + 1 := by simp
            dsimp only at hsplit ⊢
            rw [hsplit, List.length_append] at hfuel
            rw [← hlen] at hroom ⊢
            refine (ih (by omega) (by omega)).mono ?_
            rintro ⟨argv, rs', ps''⟩ ⟨us', vs, qs', hitems, hts, hargv, hredirs, hcount⟩
            refine ⟨.word tok.span :: (us ++ us'), tok.span :: vs, qs ++ qs',
              .word (Items.redirs hus hitems), ?_, ?_, ?_, ?_⟩
            · rw [htok, hsplit, hts, List.cons_append, List.append_assoc]
            · rw [hargv, List.append_cons ws tok.span vs]
            · rw [hredirs, List.append_assoc]
            · rw [List.append_cons ws tok.span vs]
              exact hcount

/-! ## Background commands -/

theorem backLoop_meets {fuel : Nat} (c : Cmd) (hfuel : (tokens es ps).length < fuel) :
    (backLoop es fuel c ps).Meets fun r =>
      ∃ n, r.1 = Cmd.back^[n] c ∧
        tokens es ps = List.replicate n (.op .amp) ++ tokens es r.2 := by
  induction fuel generalizing ps c with
  | zero => omega
  | succ fuel ih =>
    rw [backLoop]
    have hskip := tokens_peek es ps [Op.amp.char]
    split
    · next hpeek =>
      have hamp := tokens_taken es (by decide) hpeek
      rw [hamp, List.length_cons] at hfuel
      refine (ih (.back c) (by omega)).mono ?_
      rintro r ⟨n, hr, hsplit⟩
      refine ⟨n + 1, ?_, ?_⟩
      · rw [hr, Function.iterate_succ_apply]
      · rw [hamp, hsplit]
        rfl
    · exact ⟨0, rfl, hskip.symm⟩

/-! ## Soundness -/

/-- The first part of the tokens at a cursor derives the tree, and the rest is at the cursor
afterwards. -/
def Derived (es : Nat) (part : Part) (ps : List Byte) (r : Cmd × List Byte) : Prop :=
  ∃ us, Derives part us r.1 ∧ tokens es ps = us ++ tokens es r.2

/-- The soundness of the four functions that call each other, by induction on the fuel: with `n`
tokens left, each needs one more than those that it calls before it takes a token. -/
structure Sound (es fuel : Nat) : Prop where
  line (ps : List Byte) : 4 * (tokens es ps).length + 6 ≤ fuel →
    (parseline es fuel ps).Meets (Derived es .line ps)
  pipe (ps : List Byte) : 4 * (tokens es ps).length + 5 ≤ fuel →
    (parsepipe es fuel ps).Meets (Derived es .pipe ps)
  exec (ps : List Byte) : 4 * (tokens es ps).length + 4 ≤ fuel →
    (parseexec es fuel ps).Meets (Derived es .exec ps)
  block (ps : List Byte) : 4 * (tokens es ps).length + 3 ≤ fuel →
    (parseblock es fuel ps).Meets (Derived es .exec ps)

theorem parseline_sound {fuel : Nat} (hs : Sound es fuel) (ps : List Byte)
    (hfuel : 4 * (tokens es ps).length + 6 ≤ fuel + 1) :
    (parseline es (fuel + 1) ps).Meets (Derived es .line ps) := by
  rw [parseline]
  refine (hs.pipe ps (by omega)).bind ?_
  rintro ⟨c, ps₁⟩ ⟨ts, hts, hsplit₁⟩
  dsimp only at hts hsplit₁ ⊢
  have hlen₁ := congrArg List.length hsplit₁
  rw [List.length_append] at hlen₁
  refine (backLoop_meets c (by omega)).bind ?_
  rintro ⟨d, ps₂⟩ ⟨n, hd, hsplit₂⟩
  dsimp only at hd hsplit₂ ⊢
  have hlen₂ := congrArg List.length hsplit₂
  rw [List.length_append, List.length_replicate] at hlen₂
  subst hd
  split
  · next hpeek =>
    have hsemi := tokens_taken es (by decide) hpeek
    have hlen₃ := congrArg List.length hsemi
    rw [List.length_cons] at hlen₃
    refine (hs.line _ (by omega)).bind ?_
    rintro ⟨e, ps₃⟩ ⟨us, hus, hsplit₃⟩
    dsimp only at hus hsplit₃
    refine ⟨_, .list n hts hus, ?_⟩
    rw [hsplit₁, hsplit₂, hsemi, hsplit₃]
    simp only [List.append_assoc, List.cons_append]
  · refine ⟨_, .line n hts, ?_⟩
    rw [hsplit₁, hsplit₂, tokens_peek, List.append_assoc]

theorem parsepipe_sound {fuel : Nat} (hs : Sound es fuel) (ps : List Byte)
    (hfuel : 4 * (tokens es ps).length + 5 ≤ fuel + 1) :
    (parsepipe es (fuel + 1) ps).Meets (Derived es .pipe ps) := by
  rw [parsepipe]
  refine (hs.exec ps (by omega)).bind ?_
  rintro ⟨c, ps₁⟩ ⟨ts, hts, hsplit₁⟩
  dsimp only at hts hsplit₁ ⊢
  have hlen₁ := congrArg List.length hsplit₁
  rw [List.length_append] at hlen₁
  split
  · next hpeek =>
    have hbar := tokens_taken es (by decide) hpeek
    have hlen₂ := congrArg List.length hbar
    rw [List.length_cons] at hlen₂
    refine (hs.pipe _ (by omega)).bind ?_
    rintro ⟨d, ps₂⟩ ⟨us, hus, hsplit₂⟩
    dsimp only at hus hsplit₂
    refine ⟨_, .pipe hts hus, ?_⟩
    rw [hsplit₁, hbar, hsplit₂, List.append_assoc, List.cons_append]
  · refine ⟨_, .exec hts, ?_⟩
    rw [hsplit₁, tokens_peek]

theorem parseexec_sound {fuel : Nat} (hs : Sound es fuel) (ps : List Byte)
    (hfuel : 4 * (tokens es ps).length + 4 ≤ fuel + 1) :
    (parseexec es (fuel + 1) ps).Meets (Derived es .exec ps) := by
  have hskip := tokens_peek es ps [Op.lparen.char]
  rw [parseexec]
  dsimp only
  split
  · refine (hs.block _ (by rw [hskip]; omega)).mono ?_
    rintro r ⟨us, hus, hsplit⟩
    exact ⟨us, hus, hskip ▸ hsplit⟩
  · generalize (peek ps [Op.lparen.char]).2 = ps₁ at hskip ⊢
    refine (redirsLoop_meets (by rw [hskip]; omega)).bind ?_
    rintro ⟨qs, ps₂⟩ ⟨us, hus, hsplit₁⟩
    dsimp only at hus hsplit₁ ⊢
    have hlen₁ := congrArg List.length hsplit₁
    rw [hskip, List.length_append] at hlen₁
    have hempty : ([] : List Span).length < maxargs := by decide
    refine (argsLoop_meets hempty (by omega)).bind ?_
    rintro ⟨argv, rs, ps₃⟩ ⟨vs, ws, rs', hitems, hsplit₂, hargv, hrs, hcount⟩
    dsimp only at hsplit₂ hargv hrs
    rw [List.nil_append] at hargv hcount
    subst hargv hrs
    refine ⟨us ++ vs, .simple (Items.redirs hus hitems) hcount, ?_⟩
    rw [← hskip, hsplit₁, hsplit₂, List.append_assoc]

theorem parseblock_sound {fuel : Nat} (hs : Sound es fuel) (ps : List Byte)
    (hfuel : 4 * (tokens es ps).length + 3 ≤ fuel + 1) :
    (parseblock es (fuel + 1) ps).Meets (Derived es .exec ps) := by
  rw [parseblock]
  dsimp only
  split
  · next hpeek =>
    have hopen := tokens_taken es (by decide) hpeek
    have hlen := congrArg List.length hopen
    rw [List.length_cons] at hlen
    refine (hs.line _ (by omega)).bind ?_
    rintro ⟨c, ps₁⟩ ⟨ts, hts, hsplit₁⟩
    dsimp only at hts hsplit₁ ⊢
    have hlen₁ := congrArg List.length hsplit₁
    rw [List.length_append] at hlen₁
    split
    · next hpeek₁ =>
      have hclose := tokens_taken es (by decide) hpeek₁
      have hlen₂ := congrArg List.length hclose
      rw [List.length_cons] at hlen₂
      refine (redirsLoop_meets (by omega)).bind ?_
      rintro ⟨rs, ps₂⟩ ⟨us, hus, hsplit₂⟩
      dsimp only at hus hsplit₂
      refine ⟨_, .block hts hus, ?_⟩
      rw [hopen, hsplit₁, hclose, hsplit₂]
      simp only [List.append_assoc, List.cons_append]
    · trivial
  · trivial

theorem sound (es fuel : Nat) : Sound es fuel := by
  induction fuel with
  | zero => exact ⟨fun _ h => absurd h (by omega), fun _ h => absurd h (by omega),
      fun _ h => absurd h (by omega), fun _ h => absurd h (by omega)⟩
  | succ fuel ih =>
    exact ⟨parseline_sound ih, parsepipe_sound ih, parseexec_sound ih, parseblock_sound ih⟩

/-! ## Completeness -/

/-- The function returns the value, with the tokens `vs` left. -/
def Leaves {α : Type} (es : Nat) (x : Outcome (α × List Byte)) (a : α) (vs : List Token) : Prop :=
  ∃ ps, x = .ok (a, ps) ∧ tokens es ps = vs

/-- The next token, if there is one, is one of the operators. -/
def Follow (ops : List Op) (vs : List Token) : Prop :=
  ∀ t ts, vs = t :: ts → ∃ o ∈ ops, t = .op o

theorem Follow.mono {ops' : List Op} (h : Follow ops vs) (hsub : ops ⊆ ops') : Follow ops' vs := by
  intro t ts hvs
  obtain ⟨o, ho, ht⟩ := h t ts hvs
  exact ⟨o, hsub ho, ht⟩

theorem Follow.cons {ops : List Op} {o : Op} (h : o ∈ ops) (vs : List Token) :
    Follow ops (.op o :: vs) := by
  intro t ts hvs
  obtain ⟨rfl, _⟩ := List.cons.inj hvs
  exact ⟨o, h, rfl⟩

theorem Follow.replicate (h : o ∈ ops) (n : Nat) (hvs : Follow ops vs) :
    Follow ops (List.replicate n (.op o) ++ vs) := by
  cases n with
  | zero => exact hvs
  | succ n => exact Follow.cons h _

/-- `peek` does not see what cannot follow. -/
theorem peek_of_follow (h : Follow ops vs) {toks : List Byte} (hps : tokens es ps = vs)
    (htoks : ∀ c ∈ toks, isWord c = false) (hops : ∀ o ∈ ops, o.char ∉ toks) :
    (peek ps toks).1 = false := by
  rw [Bool.eq_false_iff]
  intro hpeek
  obtain ⟨o, ts, ho, hts⟩ := head_of_peek es htoks hpeek
  obtain ⟨o', ho', ht⟩ := h _ _ (hps.symm.trans hts)
  cases ht
  exact hops o ho' ho

theorem redirsLoop_complete (hus : Redirs us rs)
    (hvs : ∀ o ts, vs = .op o :: ts → o.char ∉ [Op.lt.char, Op.gt.char]) {fuel : Nat}
    (hps : tokens es ps = us ++ vs) (hfuel : us.length < fuel) :
    Leaves es (redirsLoop es fuel ps) rs vs := by
  induction hus generalizing fuel ps with
  | nil =>
    obtain ⟨fuel, rfl⟩ := Nat.exists_eq_add_one_of_ne_zero (Nat.ne_of_gt hfuel)
    have hpeek : (peek ps [Op.lt.char, Op.gt.char]).1 = false := by
      rw [Bool.eq_false_iff]
      intro h
      obtain ⟨o, ts, ho, hts⟩ := head_of_peek es redirChars_not_word h
      exact hvs o ts (hps.symm.trans hts) ho
    refine ⟨(peek ps [Op.lt.char, Op.gt.char]).2, ?_, (tokens_peek es ps _).trans hps⟩
    rw [redirsLoop]
    simp only [hpeek, Bool.false_eq_true, if_false]
  | @cons o w r ts rs hr _ ih =>
    obtain ⟨fuel, rfl⟩ := Nat.exists_eq_add_one_of_ne_zero (n := fuel) (by omega)
    have hpeek := peek_of_head redirChars_not_word hps (char_of_redirOf hr)
    have hskip := tokens_peek es ps [Op.lt.char, Op.gt.char]
    rw [redirsLoop]
    simp only [hpeek, if_true]
    generalize (peek ps [Op.lt.char, Op.gt.char]).2 = ps₁ at hskip ⊢
    obtain ⟨hop, hfile⟩ := gettoken_op (hskip.trans hps)
    obtain ⟨hkind, hspan, hrest⟩ := gettoken_word hfile
    simp only [List.length_cons] at hfuel
    obtain ⟨ps', hloop, hleft⟩ := ih hrest (by omega : ts.length < fuel)
    refine ⟨ps', ?_, hleft⟩
    rw [if_neg (not_not.mpr hkind), hloop, hop, hspan, hr]
    rfl

theorem backLoop_complete {n : Nat} (hvs : Follow [.rparen, .semi] vs) {fuel : Nat} (c : Cmd)
    (hps : tokens es ps = List.replicate n (.op .amp) ++ vs) (hfuel : n < fuel) :
    Leaves es (backLoop es fuel c ps) (Cmd.back^[n] c) vs := by
  induction n generalizing fuel ps c with
  | zero =>
    obtain ⟨fuel, rfl⟩ := Nat.exists_eq_add_one_of_ne_zero (Nat.ne_of_gt hfuel)
    have hpeek := peek_of_follow hvs hps (opChar_not_word .amp) (by decide)
    refine ⟨(peek ps [Op.amp.char]).2, ?_, (tokens_peek es ps _).trans hps⟩
    rw [backLoop]
    simp only [hpeek, Bool.false_eq_true, if_false, Function.iterate_zero, id]
  | succ n ih =>
    obtain ⟨fuel, rfl⟩ := Nat.exists_eq_add_one_of_ne_zero (n := fuel) (by omega)
    rw [List.replicate_succ, List.cons_append] at hps
    have hpeek := peek_of_head (opChar_not_word .amp) hps (List.mem_singleton_self _)
    obtain ⟨_, hrest⟩ := gettoken_op ((tokens_peek es ps [Op.amp.char]).trans hps)
    rw [backLoop]
    simp only [hpeek, if_true, Function.iterate_succ_apply]
    exact ih (.back c) hrest (by omega)

/-- A simple command is redirections, and then nothing or a word and more. -/
theorem Items.first (h : Items us ws rs) :
    ∃ us₁ rs₁ us₂ rs₂, Redirs us₁ rs₁ ∧ us = us₁ ++ us₂ ∧ rs = rs₁ ++ rs₂ ∧
      ((us₂ = [] ∧ ws = [] ∧ rs₂ = []) ∨
        ∃ w us₃ ws₃, us₂ = .word w :: us₃ ∧ ws = w :: ws₃ ∧ Items us₃ ws₃ rs₂) := by
  induction h with
  | nil => exact ⟨[], [], [], [], .nil, rfl, rfl, Or.inl ⟨rfl, rfl, rfl⟩⟩
  | @word w ts ws rs hts _ =>
    exact ⟨[], [], .word w :: ts, rs, .nil, rfl, rfl, Or.inr ⟨w, ts, ws, rfl, rfl, hts⟩⟩
  | @redir o w r ts ws rs hr _ ih =>
    obtain ⟨us₁, rs₁, us₂, rs₂, hus, rfl, rfl, hrest⟩ := ih
    exact ⟨.op o :: .word w :: us₁, r :: rs₁, us₂, rs₂, .cons hr hus, rfl, rfl, hrest⟩

/-- The operators after which a simple command ends. -/
def stops : List Op := [.bar, .rparen, .amp, .semi]

theorem stops_not_redir : ∀ o ∈ stops, o.char ∉ [Op.lt.char, Op.gt.char] := by decide

theorem stops_char : ∀ o ∈ stops,
    o.char ∈ [Op.bar.char, Op.rparen.char, Op.amp.char, Op.semi.char] := by decide

/-- At the end of a simple command the loop of `parseexec` returns what it has. -/
theorem argsLoop_stop (hvs : Follow stops vs) (hws : ws.length < maxargs) (fuel : Nat)
    (hps : tokens es ps = vs) :
    ∃ ps', argsLoop es (fuel + 1) ws.length (argvOf ws) rs ps = .ok (argvOf ws, rs, ps') ∧
      tokens es ps' = vs := by
  have hskip := tokens_peek es ps [Op.bar.char, Op.rparen.char, Op.amp.char, Op.semi.char]
  rw [argsLoop, argvOf_close ws hws]
  cases vs with
  | nil =>
    have hnone : Follow [] ([] : List Token) := nofun
    have hpeek := peek_of_follow hnone hps stopChars_not_word nofun
    obtain ⟨heof, hleft⟩ := gettoken_of_nil (hskip.trans hps)
    simp only [hpeek, Bool.false_eq_true, if_false, heof, if_true, Outcome.ok_bind,
      Outcome.pure_eq]
    exact ⟨_, rfl, hleft⟩
  | cons t ts =>
    obtain ⟨o, ho, rfl⟩ := hvs t ts rfl
    have hpeek := peek_of_head stopChars_not_word hps (stops_char o ho)
    simp only [hpeek, if_true, Outcome.ok_bind, Outcome.pure_eq]
    exact ⟨_, rfl, hskip.trans hps⟩

/-- Redirections and arguments in turn, as `parseexec` reads them. -/
theorem argsLoop_complete {ws' : List Span} (rs : List Redir) {rs' : List Redir}
    (hus : Items us ws' rs') (hvs : Follow stops vs) (hcount : (ws ++ ws').length ≤ maxargs - 1)
    {fuel : Nat} (hps : tokens es ps = us ++ vs) (hfuel : us.length < fuel) :
    ∃ ps', (redirsLoop es fuel ps >>= fun r =>
        argsLoop es fuel ws.length (argvOf ws) (rs ++ r.1) r.2) =
      .ok (argvOf (ws ++ ws'), rs ++ rs', ps') ∧ tokens es ps' = vs := by
  induction fuel generalizing ps us ws ws' rs rs' with
  | zero => omega
  | succ fuel ih =>
    obtain ⟨us₁, rs₁, us₂, rs₂, hredirs, rfl, rfl, hrest⟩ := hus.first
    have hnext : ∀ o ts, us₂ ++ vs = .op o :: ts → o.char ∉ [Op.lt.char, Op.gt.char] := by
      intro o ts hhead
      rcases hrest with ⟨rfl, _, _⟩ | ⟨w, us₃, ws₃, rfl, _, _⟩
      · obtain ⟨o', ho', ht⟩ := hvs _ _ hhead
        cases ht
        exact stops_not_redir o ho'
      · cases hhead
    rw [List.length_append] at hfuel
    rw [List.append_assoc] at hps
    have hroom : us₁.length < fuel + 1 := by omega
    obtain ⟨ps₁, hloop, htok⟩ := redirsLoop_complete hredirs hnext hps hroom
    rw [hloop, Outcome.ok_bind]
    dsimp only
    rcases hrest with ⟨rfl, rfl, rfl⟩ | ⟨w, us₃, ws₃, rfl, rfl, hitems⟩
    · rw [List.append_nil] at hcount ⊢
      rw [List.append_nil]
      exact argsLoop_stop hvs (Nat.lt_of_le_of_lt hcount (by decide)) fuel htok
    · have hpeek : (peek ps₁ [Op.bar.char, Op.rparen.char, Op.amp.char, Op.semi.char]).1 =
          false := by
        rw [Bool.eq_false_iff]
        intro h
        obtain ⟨o, ts, _, hts⟩ := head_of_peek es stopChars_not_word h
        cases htok.symm.trans hts
      have hskip := tokens_peek es ps₁ [Op.bar.char, Op.rparen.char, Op.amp.char, Op.semi.char]
      obtain ⟨hkind, hspan, hafter⟩ := gettoken_word (hskip.trans htok)
      have hlen : (ws ++ [w]).length = ws.length + 1 := by simp
      rw [List.append_cons ws w ws₃] at hcount ⊢
      have hless : ¬ (ws ++ [w]).length ≥ maxargs := by
        rw [List.length_append] at hcount
        exact Nat.not_le.mpr
          (Nat.lt_of_le_of_lt (Nat.le_trans (Nat.le_add_right ..) hcount) (by decide))
      rw [argsLoop]
      simp only [hpeek, Bool.false_eq_true, if_false, hkind, reduceCtorEq, ne_eq,
        not_true_eq_false, hspan, argvOf_append ws w (by omega), Outcome.ok_bind, ← hlen,
        if_neg hless, ← List.append_assoc rs]
      simp only [List.length_cons] at hfuel
      exact ih _ hitems hcount hafter (by omega)

/-- What can follow each part of the grammar. -/
def Part.follow : Part → List Op
  | .line => [.rparen]
  | .pipe => [.rparen, .amp, .semi]
  | .exec => stops

/-- The function for each part of the grammar. -/
def parse (es : Nat) : Part → Nat → List Byte → Outcome (Cmd × List Byte)
  | .line => parseline es
  | .pipe => parsepipe es
  | .exec => parseexec es

/-- The fuel that each function needs for `n` tokens. -/
def Part.fuel : Part → Nat → Nat
  | .line, n => 4 * n + 6
  | .pipe, n => 4 * n + 5
  | .exec, n => 4 * n + 4

/-- A simple command does not begin with a bracket. -/
theorem Items.not_lparen (hus : Items us ws rs) (hvs : Follow stops vs)
    (hps : tokens es ps = us ++ vs) : (peek ps [Op.lparen.char]).1 = false := by
  rw [Bool.eq_false_iff]
  intro h
  have hts := tokens_taken es (by decide) h
  rw [hps] at hts
  cases hus with
  | nil =>
    obtain ⟨o, ho, ht⟩ := hvs _ _ hts
    cases ht
    exact absurd ho (by decide)
  | word _ => cases hts
  | redir hr _ =>
    obtain ⟨ht, _⟩ := List.cons.inj hts
    cases ht
    cases hr

theorem parseexec_simple (hus : Items us ws rs) (hcount : ws.length ≤ maxargs - 1)
    (hvs : Follow stops vs) {fuel : Nat} (hps : tokens es ps = us ++ vs)
    (hfuel : us.length < fuel) :
    Leaves es (parseexec es (fuel + 1) ps) (redircmds (.exec (argvOf ws)) rs) vs := by
  have hpeek := hus.not_lparen hvs hps
  have hskip := (tokens_peek es ps [Op.lparen.char]).trans hps
  have hnone : ([] ++ ws : List Span).length ≤ maxargs - 1 := hcount
  obtain ⟨ps', hargs, hleft⟩ := argsLoop_complete [] hus hvs hnone hskip hfuel
  refine ⟨ps', ?_, hleft⟩
  rw [parseexec]
  simp only [hpeek, Bool.false_eq_true, if_false, ← Outcome.bind_assoc]
  exact congrArg (fun x => x >>= fun r => Outcome.ok (redircmds (.exec r.1) r.2.1, r.2.2)) hargs

theorem parseblock_complete (hus : Redirs us rs) (hvs : Follow stops vs) {fuel : Nat}
    (hps : tokens es ps = .op .lparen :: ts) (hfuel : us.length < fuel)
    (hline : ∀ ps', tokens es ps' = ts →
      Leaves es (parseline es fuel ps') c (.op .rparen :: (us ++ vs))) :
    Leaves es (parseblock es (fuel + 1) ps) (redircmds c rs) vs := by
  have hopen := peek_of_head (opChar_not_word .lparen) hps (List.mem_singleton_self _)
  obtain ⟨_, hrest⟩ := gettoken_op ((tokens_peek es ps [Op.lparen.char]).trans hps)
  obtain ⟨ps₁, hparse, htok⟩ := hline _ hrest
  have hclose := peek_of_head (opChar_not_word .rparen) htok (List.mem_singleton_self _)
  obtain ⟨_, hafter⟩ := gettoken_op ((tokens_peek es ps₁ [Op.rparen.char]).trans htok)
  have hnext : ∀ o ts, vs = .op o :: ts → o.char ∉ [Op.lt.char, Op.gt.char] := by
    intro o ts hhead
    obtain ⟨o', ho', ht⟩ := hvs _ _ hhead
    cases ht
    exact stops_not_redir o ho'
  obtain ⟨ps₂, hloop, hleft⟩ := redirsLoop_complete hus hnext hafter hfuel
  refine ⟨ps₂, ?_, hleft⟩
  rw [parseblock]
  simp only [hopen, if_true, hparse, Outcome.ok_bind, hclose, parseredirs, hloop, Outcome.pure_eq]

theorem parsepipe_single (hvs : Follow [.rparen, .amp, .semi] vs) {fuel : Nat}
    (hexec : Leaves es (parseexec es fuel ps) c vs) :
    Leaves es (parsepipe es (fuel + 1) ps) c vs := by
  obtain ⟨ps₁, hparse, htok⟩ := hexec
  have hpeek := peek_of_follow hvs htok (opChar_not_word .bar) (by decide)
  refine ⟨_, ?_, (tokens_peek es ps₁ [Op.bar.char]).trans htok⟩
  rw [parsepipe]
  simp only [hparse, Outcome.ok_bind, hpeek, Bool.false_eq_true, if_false, Outcome.pure_eq]

theorem parsepipe_pair {d : Cmd} (us : List Token) {fuel : Nat}
    (hexec : Leaves es (parseexec es fuel ps) c (.op .bar :: us))
    (hpipe : ∀ ps', tokens es ps' = us → Leaves es (parsepipe es fuel ps') d vs) :
    Leaves es (parsepipe es (fuel + 1) ps) (.pipe c d) vs := by
  obtain ⟨ps₁, hparse, htok⟩ := hexec
  have hpeek := peek_of_head (opChar_not_word .bar) htok (List.mem_singleton_self _)
  obtain ⟨_, hrest⟩ := gettoken_op ((tokens_peek es ps₁ [Op.bar.char]).trans htok)
  obtain ⟨ps₂, hright, hleft⟩ := hpipe _ hrest
  refine ⟨ps₂, ?_, hleft⟩
  rw [parsepipe]
  simp only [hparse, Outcome.ok_bind, hpeek, if_true, hright, Outcome.pure_eq]

theorem parseline_single {n : Nat} (hvs : Follow [.rparen] vs) {fuel : Nat} (hfuel : n < fuel)
    (hpipe : Leaves es (parsepipe es fuel ps) c (List.replicate n (.op .amp) ++ vs)) :
    Leaves es (parseline es (fuel + 1) ps) (Cmd.back^[n] c) vs := by
  obtain ⟨ps₁, hparse, htok⟩ := hpipe
  obtain ⟨ps₂, hback, hleft⟩ := backLoop_complete (hvs.mono (by decide)) c htok hfuel
  have hpeek := peek_of_follow hvs hleft (opChar_not_word .semi) (by decide)
  refine ⟨_, ?_, (tokens_peek es ps₂ [Op.semi.char]).trans hleft⟩
  rw [parseline]
  simp only [hparse, Outcome.ok_bind, hback, hpeek, Bool.false_eq_true, if_false, Outcome.pure_eq]

theorem parseline_pair {d : Cmd} (us : List Token) {n fuel : Nat} (hfuel : n < fuel)
    (hpipe : Leaves es (parsepipe es fuel ps) c (List.replicate n (.op .amp) ++ .op .semi :: us))
    (hline : ∀ ps', tokens es ps' = us → Leaves es (parseline es fuel ps') d vs) :
    Leaves es (parseline es (fuel + 1) ps) (.list (Cmd.back^[n] c) d) vs := by
  obtain ⟨ps₁, hparse, htok⟩ := hpipe
  obtain ⟨ps₂, hback, hleft⟩ := backLoop_complete (Follow.cons (by decide) us) c htok hfuel
  have hpeek := peek_of_head (opChar_not_word .semi) hleft (List.mem_singleton_self _)
  obtain ⟨_, hrest⟩ := gettoken_op ((tokens_peek es ps₂ [Op.semi.char]).trans hleft)
  obtain ⟨ps₃, hright, hend⟩ := hline _ hrest
  refine ⟨ps₃, ?_, hend⟩
  rw [parseline]
  simp only [hparse, Outcome.ok_bind, hback, hpeek, if_true, hright, Outcome.pure_eq]

/-- On a derivation, followed by what cannot continue it, each function returns its tree. -/
theorem complete {part : Part} (h : Derives part us c) :
    ∀ {vs : List Token} {fuel : Nat} {ps : List Byte}, tokens es ps = us ++ vs →
      Follow part.follow vs → part.fuel (us ++ vs).length ≤ fuel →
      Leaves es (parse es part fuel ps) c vs := by
  induction h with
  | @simple ts ws rs hitems hcount =>
    intro vs fuel ps hps hvs hfuel
    rw [Part.fuel, List.length_append] at hfuel
    obtain ⟨fuel, rfl⟩ := Nat.exists_eq_add_one_of_ne_zero (n := fuel) (by omega)
    exact parseexec_simple hitems hcount hvs hps (by omega)
  | @block ts us c rs _ hredirs ih =>
    intro vs fuel ps hps hvs hfuel
    simp only [Part.fuel, List.length_append, List.length_cons] at hfuel
    obtain ⟨fuel, rfl⟩ := Nat.exists_eq_add_one_of_ne_zero (n := fuel) (by omega)
    obtain ⟨fuel, rfl⟩ := Nat.exists_eq_add_one_of_ne_zero (n := fuel) (by omega)
    rw [List.cons_append, List.append_assoc, List.cons_append] at hps
    have hskip := (tokens_peek es ps [Op.lparen.char]).trans hps
    have hpeek := peek_of_head (opChar_not_word .lparen) hps (List.mem_singleton_self _)
    rw [parse, parseexec]
    simp only [hpeek, if_true]
    refine parseblock_complete hredirs hvs hskip (by omega) fun ps' hps' => ?_
    refine ih hps' (Follow.cons (by decide) _) ?_
    simp only [Part.fuel, List.length_append, List.length_cons]
    omega
  | @exec ts c _ ih =>
    intro vs fuel ps hps hvs hfuel
    rw [Part.fuel] at hfuel
    obtain ⟨fuel, rfl⟩ := Nat.exists_eq_add_one_of_ne_zero (n := fuel) (by omega)
    apply parsepipe_single hvs
    exact ih hps (hvs.mono (by decide)) (by rw [Part.fuel]; omega)
  | @pipe ts us c d _ _ ihc ihd => 
    intro vs fuel ps hps hvs hfuel
    simp only [Part.fuel, List.length_append, List.length_cons] at hfuel
    obtain ⟨fuel, rfl⟩ := Nat.exists_eq_add_one_of_ne_zero (n := fuel) (by omega)
    rw [List.append_assoc, List.cons_append] at hps
    refine parsepipe_pair (us ++ vs) ?_ fun ps' hps' => ?_
    · refine ihc hps (Follow.cons (by decide) _) ?_
      simp only [Part.fuel, List.length_append, List.length_cons]
      omega
    · refine ihd hps' hvs ?_
      simp only [Part.fuel, List.length_append]
      omega
  | @line n ts c _ ih =>
    intro vs fuel ps hps hvs hfuel
    simp only [Part.fuel, List.length_append, List.length_replicate] at hfuel
    obtain ⟨fuel, rfl⟩ := Nat.exists_eq_add_one_of_ne_zero (n := fuel) (by omega)
    rw [List.append_assoc] at hps
    refine parseline_single hvs (by omega) (ih hps ?_ ?_)
    · exact Follow.replicate (by decide) n (hvs.mono (by decide))
    · simp only [Part.fuel, List.length_append, List.length_replicate]
      omega
  | @list n ts us c d _ _ ihc ihd =>
    intro vs fuel ps hps hvs hfuel
    simp only [Part.fuel, List.length_append, List.length_cons, List.length_replicate] at hfuel
    obtain ⟨fuel, rfl⟩ := Nat.exists_eq_add_one_of_ne_zero (n := fuel) (by omega)
    rw [List.append_assoc, List.append_assoc, List.cons_append] at hps
    refine parseline_pair (us ++ vs) (by omega) (ihc hps ?_ ?_) fun ps' hps' => ?_
    · exact Follow.replicate (by decide) n (Follow.cons (by decide) _)
    · simp only [Part.fuel, List.length_append, List.length_cons, List.length_replicate]
      omega
    · refine ihd hps' hvs ?_
      simp only [Part.fuel, List.length_append]
      omega

/-! ## Whole commands -/

theorem length_tokens_le (es : Nat) (ps : List Byte) : (tokens es ps).length ≤ ps.length := by
  have hloop (n : Nat) (ps : List Byte) : (tokensLoop es n ps).length ≤ n := by
    induction n generalizing ps with
    | zero => exact le_rfl
    | succ n ih =>
      rw [tokensLoop]
      split
      · exact Nat.zero_le _
      · exact Nat.succ_le_succ (ih _)
  exact hloop ps.length ps

/-- At the end of the tokens only white space is left. -/
theorem tokens_eq_nil_iff : tokens es ps = [] ↔ ps.dropWhile isSpace = [] := by
  constructor
  · intro h
    have hkind := (gettoken_of_nil h).1
    have hscan := scanToken_scanned ps
    simp only [gettoken] at hkind
    generalize ps.dropWhile isSpace = s at hkind hscan ⊢
    generalize scanToken s = r at hkind hscan
    cases hscan with
    | eof => rfl
    | op o hsuffix => cases hkind
    | word hc => cases hkind
  · intro h
    apply tokens_of_kind_eof
    simp only [gettoken, h]
    rfl

/-- What `parsecmd` returns, and how it does not end. -/
theorem parsecmd_spec (s : CString) :
    (∀ cmd, parsecmd s = .ok cmd ↔ Derives .line (tokens (strlen s) s.bytes) cmd) ∧
      parsecmd s ≠ .overrun ∧ parsecmd s ≠ .stuck := by
  have hfuel : 4 * (tokens (strlen s) s.bytes).length + 6 ≤ fuelFor s.bytes := by
    have := length_tokens_le (strlen s) s.bytes
    rw [fuelFor]
    omega
  have hmeets := (sound (strlen s) (fuelFor s.bytes)).line s.bytes hfuel
  have hcomplete (cmd : Cmd) (h : Derives .line (tokens (strlen s) s.bytes) cmd) :
      Leaves (strlen s) (parseline (strlen s) (fuelFor s.bytes) s.bytes) cmd [] := by
    change Leaves (strlen s) (parse (strlen s) .line (fuelFor s.bytes) s.bytes) cmd []
    refine complete h (List.append_nil _).symm (fun _ _ h => by cases h) ?_
    rw [List.append_nil]
    exact hfuel
  rw [parsecmd]
  generalize parseline (strlen s) (fuelFor s.bytes) s.bytes = x at hmeets hcomplete ⊢
  cases x with
  | ok r =>
    obtain ⟨cmd, ps⟩ := r
    obtain ⟨us, hus, hsplit⟩ := hmeets
    dsimp only at hus hsplit
    have hsame (cmd' : Cmd) (h : Derives .line (tokens (strlen s) s.bytes) cmd') :
        cmd = cmd' ∧ tokens (strlen s) ps = [] := by
      obtain ⟨ps', heq, hnil⟩ := hcomplete cmd' h
      cases heq
      exact ⟨rfl, hnil⟩
    simp only [Outcome.ok_bind, Outcome.pure_eq, peek, List.isEmpty_iff]
    by_cases hempty : ps.dropWhile isSpace = []
    · simp only [if_pos hempty]
      rw [tokens_eq_nil_iff.mpr hempty, List.append_nil] at hsplit
      refine ⟨fun cmd' => ⟨?_, fun h => ?_⟩, by simp, by simp⟩
      · rintro ⟨⟩
        rw [hsplit]
        exact hus
      · rw [(hsame cmd' h).1]
    · simp only [if_neg hempty]
      refine ⟨fun cmd' => ⟨by simp, fun h => ?_⟩, by simp, by simp⟩
      exact absurd (tokens_eq_nil_iff.mp (hsame cmd' h).2) hempty
  | panic msg =>
    refine ⟨fun cmd => ⟨by rintro ⟨⟩, fun h => ?_⟩, by rintro ⟨⟩, by rintro ⟨⟩⟩
    obtain ⟨_, heq, _⟩ := hcomplete cmd h
    cases heq
  | overrun => exact absurd hmeets id
  | stuck => exact absurd hmeets id

/-- For every command, `parsecmd` ends without a write outside `argv`, and it returns a tree
exactly when the tokens of the command derive that tree from `line`. -/
theorem parsecmd_accepts_grammar (s : CString) :
    (∀ cmd, parsecmd s = .ok cmd ↔ Derives .line (tokens (strlen s) s.bytes) cmd) ∧
      parsecmd s ≠ .overrun ∧ parsecmd s ≠ .stuck := parsecmd_spec s

end Xv6Containers.Shell
