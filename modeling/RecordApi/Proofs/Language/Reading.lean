import RecordApi.Language.Reader
import RecordApi.Proofs.Language.PrintedTypes

/-!
# Rules on their lexemes

A rule is judged by the lexemes that it goes past and the one that it leaves at hand. Only a limit
on tokens may stop it, which counts the tokens that are reached on the way, and a rule that comes
upon a lexeme where no field can begin fails.
-/

namespace RecordApi.Language

/-- The lexemes that remain. -/
def Feed.lexemes (feed : Feed) : List Lexeme :=
  feed.tokens.map Token.lexeme

namespace Reader

variable {α β : Type} {rule : Reader α} {f : α → Reader β} {good : α → Prop} {fine : β → Prop}
  {ls ls₁ ls₂ : List Lexeme} {l next : Lexeme} {bound : Nat}

/-- How many of the lexemes a limit on tokens counts: all but the end of the text. -/
def counted (lexemes : List Lexeme) : Nat :=
  lexemes.countP (· ≠ .endOfText)

theorem counted_append (ls₁ ls₂ : List Lexeme) :
    counted (ls₁ ++ ls₂) = counted ls₁ + counted ls₂ :=
  List.countP_append

/-- How many tokens are counted on the way from the first of the lexemes to the next one. -/
def cost (lexemes : List Lexeme) (next : Lexeme) : Nat :=
  counted (lexemes ++ [next]).tail

/-- The rule goes past the lexemes in front of the next one and answers well, and a limit on tokens
is drawn on by those that it reaches. It fails only if the limit does not allow for them. -/
def Passes (rule : Reader α) (lexemes : List Lexeme) (next : Lexeme) (good : α → Prop) : Prop :=
  ∀ (feed : Feed) more, feed.lexemes = lexemes ++ next :: more →
    match StateT.run rule feed with
    | .error _ => ∃ n, feed.allowance = some n ∧ n < cost lexemes next
    | .ok (a, rest) => good a ∧ rest.lexemes = next :: more ∧ rest.fault = feed.fault ∧
        feed.allowance = rest.allowance.map (· + cost lexemes next)

/-! ## Sequences of rules -/

@[simp] theorem cost_nil (next : Lexeme) : cost [] next = 0 := rfl

theorem cost_append (ls₁ ls₂ : List Lexeme) (next : Lexeme) :
    cost (ls₁ ++ ls₂) next = cost ls₁ (ls₂.headD next) + cost ls₂ next := by
  cases ls₁ with
  | nil => simp
  | cons l rest =>
      calc
        cost (l :: rest ++ ls₂) next = counted (rest ++ (ls₂ ++ [next])) := by
          simp [cost]
        _ = counted (rest ++ [ls₂.headD next] ++ (ls₂ ++ [next]).tail) := by
          rw [List.append_assoc]
          cases ls₂ <;> rfl
        _ = cost (l :: rest) (ls₂.headD next) + cost ls₂ next := counted_append _ _

theorem Passes.pure {a : α} (h : good a) : Passes (pure a) [] next good := by
  intro feed more hfeed
  exact ⟨h, hfeed, rfl, by simp⟩

theorem headD_cons_tail (ls : List Lexeme) (next : Lexeme) (more : List Lexeme) :
    ls ++ next :: more = ls.headD next :: (ls ++ next :: more).tail := by
  cases ls <;> rfl

theorem run_bind (rule : Reader α) (f : α → Reader β) (feed : Feed) :
    StateT.run (rule >>= f) feed =
      match StateT.run rule feed with
      | .error fault => .error fault
      | .ok (a, rest) => StateT.run (f a) rest := by
  rw [StateT.run_bind]
  cases StateT.run rule feed <;> rfl

theorem Passes.bind (hrule : Passes rule ls₁ (ls₂.headD next) good)
    (hf : ∀ a, good a → Passes (f a) ls₂ next fine) :
    Passes (rule >>= f) (ls₁ ++ ls₂) next fine := by
  intro feed more hfeed
  rw [List.append_assoc, headD_cons_tail ls₂] at hfeed
  have hfirst := hrule feed _ hfeed
  rw [run_bind, cost_append]
  cases hrun : StateT.run rule feed with
  | error fault =>
      rw [hrun] at hfirst
      obtain ⟨n, hn, hless⟩ := hfirst
      exact ⟨n, hn, Nat.lt_add_right _ hless⟩
  | ok answer =>
      obtain ⟨a, rest⟩ := answer
      rw [hrun] at hfirst
      obtain ⟨ha, hrest, hfault, hallow⟩ := hfirst
      rw [← headD_cons_tail] at hrest
      have hsecond := hf a ha rest more hrest
      dsimp only
      cases hrun' : StateT.run (f a) rest with
      | error fault =>
          rw [hrun'] at hsecond
          obtain ⟨n, hn, hless⟩ := hsecond
          exact ⟨_, by rw [hallow, hn, Option.map_some], by omega⟩
      | ok answer =>
          rw [hrun'] at hsecond
          obtain ⟨hb, hlast, hfault', hallow'⟩ := hsecond
          refine ⟨hb, hlast, hfault'.trans hfault, ?_⟩
          rw [hallow, hallow', Option.map_map]
          congr 1
          funext n
          simp only [Function.comp_apply]
          omega

/-- A rule that looks at the lexeme at hand, and then another. -/
theorem Passes.look (hrule : Passes rule [] (ls.headD next) good)
    (hf : ∀ a, good a → Passes (f a) ls next fine) : Passes (rule >>= f) ls next fine :=
  hrule.bind hf

/-- A rule that goes past one lexeme, and then another. -/
theorem Passes.step (hrule : Passes rule [l] (ls.headD next) good)
    (hf : ∀ a, good a → Passes (f a) ls next fine) : Passes (rule >>= f) (l :: ls) next fine :=
  hrule.bind hf

/-- A rule, and then an answer made from its own. -/
theorem Passes.map {f : α → β} (hrule : Passes rule ls next good) (hf : ∀ a, good a → fine (f a)) :
    Passes (do return f (← rule)) ls next fine := by
  rw [← List.append_nil ls]
  exact hrule.bind fun a ha => .pure (hf a ha)

/-! ## Marks and names -/

theorem lexeme_headD {feed : Feed} {more : List Lexeme} (h : feed.lexemes = next :: more) :
    (feed.tokens.headD ⟨.endOfText, Pos.nowhere⟩).lexeme = next := by
  unfold Feed.lexemes at h
  cases htokens : feed.tokens with
  | nil => simp [htokens] at h
  | cons token tokens => simpa [htokens] using (List.cons.inj (htokens ▸ h)).1

theorem passes_current : Passes current [] next fun token => token.lexeme = next := by
  intro feed more hfeed
  exact ⟨lexeme_headD hfeed, hfeed, rfl, by simp⟩

theorem passes_peek (m : Mark) : Passes (peek m) [] next (· = (next == .mark m)) :=
  passes_current.map fun token htoken => by rw [htoken]

/-- Reaching a token draws on the limit if the token is counted. -/
theorem reach_counts (token : Token) (feed : Feed) :
    match StateT.run (reach token) feed with
    | .error _ => ∃ n, feed.allowance = some n ∧ n < counted [token.lexeme]
    | .ok (_, rest) => rest.tokens = feed.tokens ∧ rest.fault = feed.fault ∧
        feed.allowance = rest.allowance.map (· + counted [token.lexeme]) := by
  obtain ⟨tokens, fault, allowance, options, mentions⟩ := feed
  obtain ⟨lexeme, pos⟩ := token
  by_cases hend : lexeme = .endOfText
  · subst hend
    cases allowance with
    | none => exact ⟨rfl, rfl, rfl⟩
    | some n => cases n <;> exact ⟨rfl, rfl, rfl⟩
  · have hcounted : counted [lexeme] = 1 := by simp [counted, hend]
    rw [hcounted]
    cases allowance with
    | none => exact ⟨rfl, rfl, rfl⟩
    | some n =>
        cases n with
        | zero =>
            cases lexeme with
            | endOfText => exact absurd rfl hend
            | _ => exact ⟨0, rfl, Nat.zero_lt_one⟩
        | succ n =>
            cases lexeme with
            | endOfText => exact absurd rfl hend
            | _ => exact ⟨rfl, rfl, rfl⟩

theorem passes_advance : Passes advance [l] next fun _ => True := by
  intro feed more hfeed
  obtain ⟨tokens, fault, allowance, options, mentions⟩ := feed
  simp only [Feed.lexemes] at hfeed
  obtain ⟨token, tokens, rfl, rfl, htokens⟩ := List.map_eq_cons_iff.mp hfeed
  obtain ⟨token', tokens, rfl, rfl, rfl⟩ := List.map_eq_cons_iff.mp htokens
  have hreach := reach_counts token'
    ⟨token :: token' :: tokens, fault, allowance, options, mentions⟩
  have hrun : StateT.run advance ⟨token :: token' :: tokens, fault, allowance, options, mentions⟩ =
      StateT.run (reach token' >>= fun _ =>
        modify fun feed => { feed with tokens := token' :: tokens })
        ⟨token :: token' :: tokens, fault, allowance, options, mentions⟩ := rfl
  rw [hrun, run_bind]
  cases hcase : StateT.run (reach token')
      ⟨token :: token' :: tokens, fault, allowance, options, mentions⟩ with
  | error misreading =>
      rw [hcase] at hreach
      exact hreach
  | ok answer =>
      rw [hcase] at hreach
      obtain ⟨-, hfault, hallow⟩ := hreach
      exact ⟨trivial, rfl, hfault, hallow⟩

theorem passes_expect (m : Mark) : Passes (expect m) [.mark m] next fun _ => True :=
  .look passes_current fun token (htoken : token.lexeme = .mark m) => by
    rw [if_pos (by simp [htoken])]
    exact passes_advance

theorem passes_accept (m : Mark) : Passes (accept m) [.mark m] next (· = true) :=
  .look (passes_peek m) fun answer (hanswer : answer = (Lexeme.mark m == .mark m)) => by
    rw [if_pos (by simp [hanswer])]
    exact .step passes_advance fun _ _ => .pure rfl

theorem passes_accept_ne {m : Mark} (h : next ≠ .mark m) :
    Passes (accept m) [] next (· = false) :=
  .look (passes_peek m) fun answer (hanswer : answer = (next == .mark m)) => by
    rw [if_neg (by simp [hanswer, h])]
    exact .pure rfl

theorem passes_name (text : String) : Passes name [.name text] next fun n => n.text = text :=
  .look passes_current fun token (htoken : token.lexeme = .name text) => by
    rw [htoken]
    exact .step passes_advance fun _ _ => .pure rfl

theorem passes_nameText (text : String) : Passes nameText [.name text] next (· = text) :=
  (passes_name text).map fun _ hn => hn

theorem passes_expectWord (word : String) :
    Passes (expectWord word) [.name word] next fun _ => True :=
  .look passes_current fun token (htoken : token.lexeme = .name word) => by
    rw [if_pos (by simp [htoken])]
    exact passes_advance

theorem passes_acceptWord_ne {word : String} (h : next ≠ .name word) :
    Passes (acceptWord word) [] next (· = false) :=
  .look passes_current fun token (htoken : token.lexeme = next) => by
    rw [if_neg (by simp [htoken, h])]
    exact .pure rfl

theorem passes_note (pos : Pos) : Passes (note pos) [] next fun _ => True := by
  intro feed more hfeed
  refine ⟨trivial, hfeed, rfl, ?_⟩
  change feed.allowance = feed.allowance.map (· + 0)
  simp

/-! ## Lists of items -/

/-- Whether a field or an argument may begin with the lexeme. -/
def Begins : Lexeme → Prop
  | .name _ | .string _ | .blockString _ => True
  | _ => False

/-- Whether a field or an argument ends in front of the lexeme. -/
def Stops (l : Lexeme) : Prop :=
  l ≠ .mark .bang ∧ l ≠ .mark .equals ∧ l ≠ .mark .atSign

theorem Begins.ne_mark (h : Begins l) (m : Mark) : l ≠ .mark m := by
  rintro rfl
  exact h

theorem Begins.stops (h : Begins l) : Stops l :=
  ⟨h.ne_mark .bang, h.ne_mark .equals, h.ne_mark .atSign⟩

section Items

variable {item : Reader α} {items : List α} {lexemes : α → List Lexeme} {opening close : Mark}

theorem stops_head (hclose : Stops (.mark close))
    (hbegin : ∀ x ∈ items, ∃ l ls, lexemes x = l :: ls ∧ Begins l) :
    Stops ((items.flatMap lexemes ++ [Lexeme.mark close]).headD next) := by
  cases items with
  | nil => exact hclose
  | cons x rest =>
      obtain ⟨l, ls, hx, hl⟩ := hbegin x List.mem_cons_self
      simpa [hx] using hl.stops

theorem passes_itemsUntil (hclose : Stops (.mark close))
    (hitem : ∀ x ∈ items, ∀ next, Stops next → Passes item (lexemes x) next (· = x))
    (hbegin : ∀ x ∈ items, ∃ l ls, lexemes x = l :: ls ∧ Begins l) (hbound : items.length < bound) :
    Passes (itemsUntil close item bound) (items.flatMap lexemes ++ [.mark close]) next
      (· = items) := by
  induction items generalizing bound with
  | nil =>
      cases bound with
      | zero => simp at hbound
      | succ bound =>
          refine .step (passes_accept close) fun answer hanswer => ?_
          rw [if_pos hanswer]
          exact .pure rfl
  | cons x rest ih =>
      cases bound with
      | zero => simp at hbound
      | succ bound =>
          obtain ⟨l, ls, hx, hl⟩ := hbegin x List.mem_cons_self
          have hbegin' := fun y hy => hbegin y (List.mem_cons_of_mem x hy)
          have hrest := ih (fun y hy => hitem y (List.mem_cons_of_mem x hy)) hbegin'
            (Nat.lt_of_succ_lt_succ hbound)
          refine .look (passes_accept_ne (by simpa [hx] using hl.ne_mark close))
            fun answer hanswer => ?_
          rw [if_neg (by simp [hanswer]), List.flatMap_cons, List.append_assoc]
          have hfirst := hitem x List.mem_cons_self
          apply (hfirst _ (stops_head hclose hbegin')).bind
          intro first hfirst
          exact hrest.map fun more hmore => by rw [hfirst, hmore]

theorem passes_optionalMany (hclose : Stops (.mark close)) (hnext : next ≠ .mark opening)
    (hitem : ∀ x ∈ items, ∀ next, Stops next → Passes item (lexemes x) next (· = x))
    (hbegin : ∀ x ∈ items, ∃ l ls, lexemes x = l :: ls ∧ Begins l)
    (hbound : items.length ≤ bound) :
    Passes (optionalMany bound opening close item)
      (enclosed opening close (items.flatMap lexemes)) next (· = items) := by
  cases items with
  | nil =>
      refine .look (passes_peek opening) fun answer hanswer => ?_
      rw [if_neg (by simpa [hanswer, enclosed] using hnext)]
      exact .pure rfl
  | cons x rest =>
      obtain ⟨l, ls, hx, -⟩ := hbegin x List.mem_cons_self
      have hbegin' := fun y hy => hbegin y (List.mem_cons_of_mem x hy)
      have hrest : Passes (itemsUntil close item bound) (rest.flatMap lexemes ++ [.mark close])
          next (· = rest) :=
        passes_itemsUntil hclose (fun y hy => hitem y (List.mem_cons_of_mem x hy)) hbegin' hbound
      rw [enclosed, if_neg (by simp [hx]), List.flatMap_cons, List.append_assoc]
      refine .look (passes_peek opening) fun answer hanswer => ?_
      rw [if_pos (by simp [hanswer])]
      refine .step (passes_expect opening) fun _ _ => ?_
      apply (hitem x List.mem_cons_self _ (stops_head hclose hbegin')).bind
      intro first hfirst
      exact hrest.map fun more hmore => by rw [hfirst, hmore]

end Items

end Reader

end RecordApi.Language
