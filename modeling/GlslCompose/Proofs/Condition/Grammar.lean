import GlslCompose.Condition.Parser

/-!
# The grammar of condition expressions

Ten levels of binary operators, all of them left-associative, stand above the prefix
operators, and these above literals, words, `defined` and parentheses.  The parser reads a
chain of operands and groups it by the levels of its operators; it accepts exactly the token
lists that the grammar derives, with the tree that the derivation has.
-/

namespace GlslCompose

/-! ## Derivations -/

def operandLevel : Nat := 11

theorem BinaryOp.level_lt (op : BinaryOp) : op.level < operandLevel := by
  cases op <;> decide

theorem BinaryOp.level_pos (op : BinaryOp) : 0 < op.level := by
  cases op <;> decide

def Token.IsDefined (token : Token) : Prop :=
  token.kind.isWord = true ∧ token.text = definedWord

/-- The tokens make up an expression of the level.  Parentheses are told by their text; of
the tokens of a source only operators are spelled like them. -/
inductive Derives : Nat → List Token → Expr → Prop where
  | literal {token : Token} {value : Int64} (hkind : token.kind = .integer)
      (hvalue : integerLiteral? token.text = some value) :
      Derives operandLevel [token] (.literal value)
  | name {token : Token} (hword : token.kind.isWord = true) (hother : token.text ≠ definedWord) :
      Derives operandLevel [token] (.name token.text)
  | defined {mark token : Token} (hmark : mark.IsDefined) (hword : token.kind.isWord = true)
      (hopening : token.text ≠ ['(']) :
      Derives operandLevel [mark, token] (.defined token.text)
  | definedWithin {mark opening token closing : Token} (hmark : mark.IsDefined)
      (hopening : opening.text = ['(']) (hword : token.kind.isWord = true)
      (hclosing : closing.text = [')']) :
      Derives operandLevel [mark, opening, token, closing] (.defined token.text)
  | unary {token : Token} {op : UnaryOp} {tokens : List Token} {expr : Expr}
      (hkind : token.kind = .operator) (hop : UnaryOp.ofSymbol? token.text = some op)
      (hoperand : Derives operandLevel tokens expr) :
      Derives operandLevel (token :: tokens) (.unary op expr)
  | parenthesized {opening closing : Token} {tokens : List Token} {expr : Expr}
      (hkind : opening.kind = .operator) (hopening : opening.text = ['('])
      (hclosing : closing.text = [')']) (hinner : Derives 1 tokens expr) :
      Derives operandLevel (opening :: (tokens ++ [closing])) expr
  | binary {op : BinaryOp} {token : Token} {first second : List Token} {left right : Expr}
      (hop : binaryOp? token = some op) (hleft : Derives op.level first left)
      (hright : Derives (op.level + 1) second right) :
      Derives op.level (first ++ token :: second) (.binary op left right)
  | tighter {level : Nat} {tokens : List Token} {expr : Expr} (hlevel : level < operandLevel)
      (h : Derives (level + 1) tokens expr) : Derives level tokens expr

theorem Derives.mono {level low : Nat} {tokens : List Token} {expr : Expr}
    (h : Derives level tokens expr) (hlow : low ≤ level) (hlevel : level ≤ operandLevel) :
    Derives low tokens expr := by
  induction hlow with
  | refl => exact h
  | step _ ih => exact ih (.tighter hlevel h) (Nat.le_of_succ_le hlevel)

inductive LinksOf (Operand : List Token → Expr → Prop) :
    List Token → List (BinaryOp × Expr) → Prop where
  | nil : LinksOf Operand [] []
  | cons {token : Token} {op : BinaryOp} {tokens more : List Token} {right : Expr}
      {links : List (BinaryOp × Expr)} (hop : binaryOp? token = some op)
      (hright : Operand tokens right) (hmore : LinksOf Operand more links) :
      LinksOf Operand (token :: (tokens ++ more)) ((op, right) :: links)

/-! ## Tokens that end a chain -/

private theorem binaryOp?_of_closing {token : Token} (h : token.text = [')']) :
    binaryOp? token = none := by
  unfold binaryOp?
  rw [h]
  split
  · decide
  · rfl

def EndsChain (rest : List Token) : Prop := ∀ token ∈ rest.head?, binaryOp? token = none

private theorem endsChain_nil : EndsChain [] := nofun

private theorem endsChain_closing {token : Token} (h : token.text = [')']) (rest : List Token) :
    EndsChain (token :: rest) := by
  rintro _ ⟨⟩
  exact binaryOp?_of_closing h

/-! ## Grouping a chain as derived -/

namespace Expr

/-- Behind anything that binds less tightly and in front of anything that binds no more
tightly, the chain counts as the expression. -/
def Groups (level : Nat) (first : Expr) (links : List (BinaryOp × Expr)) (expr : Expr) : Prop :=
  ∀ (pending : PendingOps) (more : List (BinaryOp × Expr)),
    (∀ waiting ∈ pending, waiting.2.level < level) →
    (∀ link ∈ more.head?, link.1.level ≤ level) →
    climb pending first (links ++ more) = climb pending expr more

variable {level : Nat} {first expr : Expr} {links : List (BinaryOp × Expr)}

private theorem groups_operand (level : Nat) (expr : Expr) : Groups level expr [] expr :=
  fun _ _ _ _ => rfl

private theorem Groups.ofChain_eq (h : Groups level first links expr) :
    ofChain first links = expr := by
  have hclimb := h [] [] nofun nofun
  rw [List.append_nil] at hclimb
  exact hclimb

theorem Groups.tighter (h : Groups (level + 1) first links expr) :
    Groups level first links expr := by
  intro pending more hpending hmore
  exact h pending more (fun waiting hmem => Nat.lt_succ_of_lt (hpending waiting hmem))
    fun link hlink => Nat.le_succ_of_le (hmore link hlink)

private theorem reduce_of_lt {pending : PendingOps}
    (h : ∀ waiting ∈ pending, waiting.2.level < level) (current : Expr) :
    reduce level pending current = (pending, current) := by
  cases pending with
  | nil => rfl
  | cons waiting pending =>
      have hless := h waiting List.mem_cons_self
      rw [reduce, if_neg (Nat.not_le_of_lt hless)]

private theorem reduce_of_le {op : BinaryOp} (h : level ≤ op.level) (left current : Expr)
    (pending : PendingOps) :
    reduce level ((left, op) :: pending) current =
      reduce level pending (.binary op left current) := by
  rw [reduce, if_pos h]

private theorem climb_cons_pending {op : BinaryOp} {more : List (BinaryOp × Expr)}
    (hmore : ∀ link ∈ more.head?, link.1.level ≤ op.level) (left right : Expr)
    (pending : PendingOps) :
    climb ((left, op) :: pending) right more = climb pending (.binary op left right) more := by
  cases more with
  | nil => rw [climb, climb, reduce_of_le (Nat.zero_le _)]
  | cons link more =>
      rw [climb, climb, reduce_of_le (hmore link rfl)]

theorem Groups.binary {op : BinaryOp} {left right second : Expr}
    {others : List (BinaryOp × Expr)} (hleft : Groups op.level first links left)
    (hright : Groups (op.level + 1) second others right) :
    Groups op.level first (links ++ (op, second) :: others) (.binary op left right) := by
  intro pending more hpending hmore
  have hwaiting : ∀ waiting ∈ (left, op) :: pending, waiting.2.level < op.level + 1 := by
    intro waiting hmem
    rcases List.mem_cons.mp hmem with rfl | hmem
    · exact Nat.lt_succ_self _
    · exact Nat.lt_succ_of_lt (hpending waiting hmem)
  calc climb pending first ((links ++ (op, second) :: others) ++ more)
      = climb pending first (links ++ ((op, second) :: (others ++ more))) := by
        rw [List.append_assoc, List.cons_append]
    _ = climb pending left ((op, second) :: (others ++ more)) := by
        refine hleft pending _ hpending ?_
        rintro link ⟨⟩
        exact Nat.le_refl _
    _ = climb ((left, op) :: pending) second (others ++ more) := by
        rw [climb, reduce_of_lt hpending]
    _ = climb ((left, op) :: pending) right more :=
        hright _ more hwaiting fun link hlink => Nat.le_succ_of_le (hmore link hlink)
    _ = climb pending (.binary op left right) more := climb_cons_pending hmore left right pending

end Expr

/-! ## Whatever is derived is read -/

theorem LinksOf.append {Operand : List Token → Expr → Prop} {tokens more : List Token}
    {links others : List (BinaryOp × Expr)} (h : LinksOf Operand tokens links)
    (hmore : LinksOf Operand more others) : LinksOf Operand (tokens ++ more) (links ++ others) := by
  induction h with
  | nil => exact hmore
  | cons hop hright _ ih =>
      rw [List.cons_append, List.append_assoc]
      exact .cons hop hright ih

/-- The tokens are read as the operand, whatever follows them. -/
def ReadsOperand (tokens : List Token) (expr : Expr) : Prop :=
  ∀ rest, ∃ h, operand (tokens ++ rest) = .ok ⟨expr, rest, h⟩

/-- The tokens are read as operands with operators between them, which are grouped into
the expression. -/
def ReadsChain (level : Nat) (tokens : List Token) (expr : Expr) : Prop :=
  ∃ front back first links, tokens = front ++ back ∧ ReadsOperand front first ∧
    LinksOf ReadsOperand back links ∧ Expr.Groups level first links expr

private theorem ReadsOperand.readsChain {tokens : List Token} {expr : Expr}
    (h : ReadsOperand tokens expr) (level : Nat) : ReadsChain level tokens expr :=
  ⟨tokens, [], expr, [], (List.append_nil _).symm, h, .nil, Expr.groups_operand level expr⟩

theorem ReadsChain.tighter {level : Nat} {tokens : List Token} {expr : Expr}
    (h : ReadsChain (level + 1) tokens expr) : ReadsChain level tokens expr := by
  obtain ⟨front, back, first, links, heq, hfirst, hlinks, hgroups⟩ := h
  exact ⟨front, back, first, links, heq, hfirst, hlinks, hgroups.tighter⟩

theorem ReadsChain.binary {op : BinaryOp} {token : Token} {first second : List Token}
    {left right : Expr} (hop : binaryOp? token = some op) (hleft : ReadsChain op.level first left)
    (hright : ReadsChain (op.level + 1) second right) :
    ReadsChain op.level (first ++ token :: second) (.binary op left right) := by
  obtain ⟨front, back, head, links, rfl, hhead, hlinks, hgroups⟩ := hleft
  obtain ⟨front', back', head', links', rfl, hhead', hlinks', hgroups'⟩ := hright
  refine ⟨front, back ++ token :: (front' ++ back'), head, links ++ (op, head') :: links',
    List.append_assoc _ _ _, hhead, hlinks.append (.cons hop hhead' hlinks'), ?_⟩
  exact hgroups.binary hgroups'

private theorem links_append {tokens rest : List Token} {following : List (BinaryOp × Expr)}
    (h : LinksOf ReadsOperand tokens following) (hrest : EndsChain rest) :
    ∃ hle, links (tokens ++ rest) = .ok (following, ⟨rest, hle⟩) := by
  induction h with
  | nil =>
      rw [List.nil_append]
      refine ⟨Nat.le_refl _, ?_⟩
      cases rest with
      | nil => rw [links]
      | cons token rest => rw [links, hrest token rfl]
  | @cons token op tokens more right following hop hright _ ih =>
      obtain ⟨hshorter, hoperand⟩ := hright (more ++ rest)
      obtain ⟨hle, hlinks⟩ := ih
      rw [List.cons_append, List.append_assoc]
      refine ⟨by simp only [List.length_cons, List.length_append]; omega, ?_⟩
      rw [links, hop, hoperand]
      simp only [bind, Except.bind, hlinks]
      rfl

private theorem ReadsChain.chain_append {level : Nat} {tokens rest : List Token} {expr : Expr}
    (h : ReadsChain level tokens expr) (hrest : EndsChain rest) :
    ∃ hshorter, chain (tokens ++ rest) = .ok ⟨expr, rest, hshorter⟩ := by
  obtain ⟨front, back, first, following, rfl, hfirst, hlinks, hgroups⟩ := h
  obtain ⟨hshorter, hoperand⟩ := hfirst (back ++ rest)
  obtain ⟨hle, hmore⟩ := links_append hlinks hrest
  rw [List.append_assoc]
  refine ⟨Nat.lt_of_le_of_lt hle hshorter, ?_⟩
  rw [chain, hoperand]
  simp only [bind, Except.bind, hmore, hgroups.ofChain_eq]
  rfl

/-! ### Operands -/

private theorem readsOperand_literal {token : Token} {value : Int64} (hkind : token.kind = .integer)
    (hvalue : integerLiteral? token.text = some value) : ReadsOperand [token] (.literal value) := by
  intro rest
  rw [List.singleton_append]
  refine ⟨Nat.lt_succ_self _, ?_⟩
  rw [operand, hkind]
  simp only [hvalue]

theorem operand_word {token : Token} (hword : token.kind.isWord = true) (rest : List Token) :
    operand (token :: rest) =
      if token.text = definedWord then do
        let name ← definedOperand rest
        return ⟨name.value, name.rest, Nat.lt_succ_of_lt name.shorter⟩
      else .ok ⟨.name token.text, rest, Nat.lt_succ_self _⟩ := by
  rw [operand]
  cases hkind : token.kind <;> simp only [hkind, TokenKind.isWord, Bool.false_eq_true] at hword ⊢

private theorem readsOperand_name {token : Token} (hword : token.kind.isWord = true)
    (hother : token.text ≠ definedWord) : ReadsOperand [token] (.name token.text) := by
  intro rest
  rw [List.singleton_append]
  refine ⟨Nat.lt_succ_self _, ?_⟩
  rw [operand_word hword, if_neg hother]

private theorem macroName_cons {token : Token} (hword : token.kind.isWord = true)
    (rest : List Token) :
    macroName (token :: rest) = .ok ⟨token.text, rest, Nat.lt_succ_self _⟩ :=
  if_pos hword

private theorem expectClosing_cons {token : Token} (hclosing : token.text = [')']) (rest :
    List Token) :
    expectClosing (token :: rest) = .ok ⟨(), rest, Nat.lt_succ_self _⟩ :=
  if_pos hclosing

private theorem readsOperand_defined {mark token : Token} (hmark : mark.IsDefined)
    (hword : token.kind.isWord = true) (hopening : token.text ≠ ['(']) :
    ReadsOperand [mark, token] (.defined token.text) := by
  intro rest
  simp only [List.cons_append, List.nil_append]
  refine ⟨by simp only [List.length_cons]; omega, ?_⟩
  rw [operand_word hmark.1, if_pos hmark.2, definedOperand, if_neg hopening,
    macroName_cons hword]
  rfl

private theorem readsOperand_definedWithin {mark opening token closing : Token}
    (hmark : mark.IsDefined) (hopening : opening.text = ['(']) (hword : token.kind.isWord = true)
    (hclosing : closing.text = [')']) :
    ReadsOperand [mark, opening, token, closing] (.defined token.text) := by
  intro rest
  simp only [List.cons_append, List.nil_append]
  refine ⟨by simp only [List.length_cons]; omega, ?_⟩
  rw [operand_word hmark.1, if_pos hmark.2, definedOperand, if_pos hopening,
    macroName_cons hword]
  simp only [bind, Except.bind, expectClosing_cons hclosing]
  rfl

private theorem not_opening_of_ofSymbol? {symbol : Text} {op : UnaryOp}
    (hop : UnaryOp.ofSymbol? symbol = some op) : symbol ≠ ['('] := by
  rintro rfl
  exact absurd hop (by simp [show UnaryOp.ofSymbol? ['('] = none by decide])

private theorem readsOperand_unary {token : Token} {op : UnaryOp} {tokens : List Token}
    {expr : Expr} (hkind : token.kind = .operator) (hop : UnaryOp.ofSymbol? token.text = some op)
    (hoperand : ReadsOperand tokens expr) :
    ReadsOperand (token :: tokens) (.unary op expr) := by
  intro rest
  obtain ⟨hshorter, hread⟩ := hoperand rest
  rw [List.cons_append]
  refine ⟨Nat.lt_succ_of_lt hshorter, ?_⟩
  rw [operand, hkind]
  simp only [if_neg (not_opening_of_ofSymbol? hop), hop, hread]
  rfl

private theorem readsOperand_parenthesized {opening closing : Token} {tokens : List Token}
    {expr : Expr} (hkind : opening.kind = .operator) (hopening : opening.text = ['('])
    (hclosing : closing.text = [')']) (hinner : ReadsChain 1 tokens expr) :
    ReadsOperand (opening :: (tokens ++ [closing])) expr := by
  intro rest
  obtain ⟨hshorter, hread⟩ := hinner.chain_append (endsChain_closing hclosing rest)
  rw [List.cons_append, List.append_assoc, List.singleton_append]
  refine ⟨Nat.lt_succ_of_lt (Nat.lt_trans (Nat.lt_succ_self _) hshorter), ?_⟩
  rw [operand, hkind]
  simp only [if_pos hopening, hread, bind, Except.bind, expectClosing_cons hclosing]
  rfl

theorem Derives.reads {level : Nat} {tokens : List Token} {expr : Expr}
    (h : Derives level tokens expr) :
    (level = operandLevel → ReadsOperand tokens expr) ∧ ReadsChain level tokens expr := by
  have hoperand : ∀ {tokens expr}, ReadsOperand tokens expr →
      (operandLevel = operandLevel → ReadsOperand tokens expr) ∧
        ReadsChain operandLevel tokens expr :=
    fun hread => ⟨fun _ => hread, hread.readsChain operandLevel⟩
  induction h with
  | literal hkind hvalue => exact hoperand (readsOperand_literal hkind hvalue)
  | name hword hother => exact hoperand (readsOperand_name hword hother)
  | defined hmark hword hopening => exact hoperand (readsOperand_defined hmark hword hopening)
  | definedWithin hmark hopening hword hclosing =>
      exact hoperand (readsOperand_definedWithin hmark hopening hword hclosing)
  | unary hkind hop _ ih => exact hoperand (readsOperand_unary hkind hop (ih.1 rfl))
  | parenthesized hkind hopening hclosing _ ih =>
      exact hoperand (readsOperand_parenthesized hkind hopening hclosing ih.2)
  | binary hop _ _ ihleft ihright =>
      exact ⟨fun hlevel => absurd hlevel (Nat.ne_of_lt (BinaryOp.level_lt _)),
        ihleft.2.binary hop ihright.2⟩
  | tighter hlevel _ ih =>
      exact ⟨fun hsame => absurd hsame (Nat.ne_of_lt hlevel), ih.2.tighter⟩

/-! ## Whatever is read is derived -/

/-- The tokens in front of an operand that is still growing, and the least level at which
it may be an operand of what waits in front of it. -/
inductive Waits : Nat → List Token → PendingOps → Prop where
  | nil : Waits 1 [] []
  | cons {level : Nat} {before first : List Token} {pending : PendingOps} {token : Token}
      {op : BinaryOp} {left : Expr} (h : Waits level before pending) (hlevel : level ≤ op.level)
      (hleft : Derives op.level first left) (hop : binaryOp? token = some op) :
      Waits (op.level + 1) (before ++ (first ++ [token])) ((left, op) :: pending)

theorem Waits.reduce {level top least : Nat} {before tokens : List Token} {pending : PendingOps}
    {current : Expr} (h : Waits top before pending) (hcurrent : Derives level tokens current)
    (hlevel : level ≤ operandLevel) (htop : top ≤ level) (hleast : least ≤ level)
    (hpos : 0 < least) :
    ∃ top' before' tokens', before ++ tokens = before' ++ tokens' ∧ top' ≤ least ∧
      Waits top' before' (Expr.reduce least pending current).1 ∧
      Derives least tokens' (Expr.reduce least pending current).2 := by
  induction h generalizing level tokens current with
  | nil => exact ⟨1, [], tokens, rfl, hpos, .nil, hcurrent.mono hleast hlevel⟩
  | @cons top before first pending token op left hwaits hop hleft hsymbol ih =>
      by_cases hdue : least ≤ op.level
      · have hjoined : Derives op.level (first ++ token :: tokens) (.binary op left current) :=
          .binary hsymbol hleft (hcurrent.mono htop hlevel)
        obtain ⟨top', before', tokens', heq, hrest⟩ :=
          ih hjoined (Nat.le_of_lt op.level_lt) hop hdue
        rw [Expr.reduce_of_le hdue]
        refine ⟨top', before', tokens', ?_, hrest⟩
        rw [← heq]
        simp only [List.append_assoc, List.singleton_append]
      · rw [Expr.reduce, if_neg hdue]
        exact ⟨op.level + 1, _, tokens, rfl, Nat.lt_of_not_le hdue,
          .cons hwaits hop hleft hsymbol, hcurrent.mono hleast hlevel⟩

theorem Waits.eq_nil {top : Nat} {before : List Token} {pending : PendingOps}
    (h : Waits top before pending) (htop : top ≤ 1) : before = [] ∧ pending = [] := by
  cases h with
  | nil => exact ⟨rfl, rfl⟩
  | cons hwaits hlevel hleft hop => exact absurd htop (by have := BinaryOp.level_pos; grind)

private theorem Expr.reduce_zero (pending : PendingOps) (current : Expr) :
    reduce 0 pending current = reduce 1 pending current := by
  induction pending generalizing current with
  | nil => rfl
  | cons waiting pending ih =>
      obtain ⟨left, op⟩ := waiting
      rw [reduce_of_le (Nat.zero_le _), reduce_of_le op.level_pos, ih]

theorem Waits.climb {top : Nat} {before tokens more : List Token} {pending : PendingOps}
    {current : Expr} {links : List (BinaryOp × Expr)} (h : Waits top before pending)
    (htop : top ≤ operandLevel) (hcurrent : Derives operandLevel tokens current)
    (hlinks : LinksOf (Derives operandLevel) more links) :
    Derives 1 (before ++ (tokens ++ more)) (Expr.climb pending current links) := by
  induction hlinks generalizing top before tokens pending current with
  | nil =>
      obtain ⟨top', before', tokens', heq, hleast, hwaits, hderives⟩ :=
        h.reduce hcurrent (Nat.le_refl _) htop (show 1 ≤ operandLevel by decide) Nat.one_pos
      obtain ⟨rfl, _⟩ := hwaits.eq_nil hleast
      rw [List.append_nil, heq, Expr.climb, Expr.reduce_zero]
      exact hderives
  | @cons token op second more right links hop hright _ ih =>
      obtain ⟨top', before', tokens', heq, hleast, hwaits, hderives⟩ :=
        h.reduce hcurrent (Nat.le_refl _) htop (Nat.le_of_lt op.level_lt) op.level_pos
      have htokens : before ++ (tokens ++ token :: (second ++ more)) =
          before' ++ (tokens' ++ [token]) ++ (second ++ more) := by
        rw [← List.append_assoc, heq]
        simp only [List.append_assoc, List.singleton_append]
      rw [htokens, Expr.climb]
      exact ih (hwaits.cons hleast hderives hop) op.level_lt hright

private theorem derives_ofChain {tokens more : List Token} {first : Expr}
    {links : List (BinaryOp × Expr)} (hfirst : Derives operandLevel tokens first)
    (hlinks : LinksOf (Derives operandLevel) more links) :
    Derives 1 (tokens ++ more) (Expr.ofChain first links) :=
  Waits.nil.climb (by decide) hfirst hlinks

/-! ### Tokens -/

private theorem macroName_eq_ok {tokens : List Token} {name : Parsed Text tokens}
    (h : macroName tokens = .ok name) :
    ∃ token, tokens = token :: name.rest ∧ token.kind.isWord = true ∧ token.text = name.value := by
  cases tokens with
  | nil => cases h
  | cons token rest =>
      rw [macroName] at h
      split at h
      · rename_i hword
        cases h
        exact ⟨token, rfl, hword, rfl⟩
      · cases h

private theorem expectClosing_eq_ok {tokens : List Token} {closing : Parsed Unit tokens}
    (h : expectClosing tokens = .ok closing) :
    ∃ token, tokens = token :: closing.rest ∧ token.text = [')'] := by
  cases tokens with
  | nil => cases h
  | cons token rest =>
      rw [expectClosing] at h
      split at h
      · rename_i hclosing
        cases h
        exact ⟨token, rfl, hclosing⟩
      · cases h

private theorem bind_eq_ok {ε α β : Type} {first : Except ε α} {next : α → Except ε β} {value : β}
    (h : first >>= next = .ok value) : ∃ middle, first = .ok middle ∧ next middle = .ok value := by
  cases first with
  | error fault => cases h
  | ok middle => exact ⟨middle, rfl, h⟩

private theorem derives_definedOperand {mark : Token} (hmark : mark.IsDefined) {tokens : List Token}
    {parsed : Parsed Expr tokens} (h : definedOperand tokens = .ok parsed) :
    ∃ front, tokens = front ++ parsed.rest ∧ Derives operandLevel (mark :: front) parsed.value := by
  cases tokens with
  | nil => cases h
  | cons token rest =>
      rw [definedOperand] at h
      split at h
      · rename_i hopening
        obtain ⟨name, hname, h⟩ := bind_eq_ok h
        obtain ⟨closing, hclosing, h⟩ := bind_eq_ok h
        cases h
        obtain ⟨word, hrest, hword, hvalue⟩ := macroName_eq_ok hname
        obtain ⟨last, hafter, hlast⟩ := expectClosing_eq_ok hclosing
        refine ⟨[token, word, last], ?_, ?_⟩
        · calc token :: rest = token :: word :: name.rest := congrArg (token :: ·) hrest
            _ = token :: word :: last :: closing.rest := congrArg (token :: word :: ·) hafter
        · rw [← hvalue]
          exact .definedWithin hmark hopening hword hlast
      · rename_i hopening
        obtain ⟨name, hname, h⟩ := bind_eq_ok h
        cases h
        obtain ⟨word, hrest, hword, hvalue⟩ := macroName_eq_ok hname
        cases List.head_eq_of_cons_eq hrest
        refine ⟨[token], hrest, ?_⟩
        rw [← hvalue]
        exact .defined hmark hword hopening

mutual

private theorem derives_operand (tokens : List Token) {parsed : Parsed Expr tokens}
    (h : operand tokens = .ok parsed) :
    ∃ front, tokens = front ++ parsed.rest ∧ Derives operandLevel front parsed.value := by
  match tokens with
  | [] => rw [operand] at h; cases h
  | token :: rest =>
      by_cases hword : token.kind.isWord = true
      · rw [operand_word hword] at h
        split at h
        · rename_i hmark
          obtain ⟨name, hname, h⟩ := bind_eq_ok h
          cases h
          obtain ⟨front, hrest, hderives⟩ := derives_definedOperand ⟨hword, hmark⟩ hname
          exact ⟨token :: front, congrArg (token :: ·) hrest, hderives⟩
        · rename_i hother
          cases h
          exact ⟨[token], rfl, .name hword hother⟩
      · rw [operand] at h
        cases hkind : token.kind with
        | ident | keyword | builtin => exact absurd (by rw [hkind]; rfl) hword
        | integer =>
            simp only [hkind] at h
            split at h
            · rename_i value hvalue
              cases h
              exact ⟨[token], rfl, .literal hkind hvalue⟩
            · cases h
        | operator =>
            simp only [hkind] at h
            split at h
            · rename_i hopening
              obtain ⟨inner, hinner, h⟩ := bind_eq_ok h
              obtain ⟨closing, hclosing, h⟩ := bind_eq_ok h
              cases h
              obtain ⟨front, hrest, hderives⟩ := derives_chain rest hinner
              obtain ⟨last, hafter, hlast⟩ := expectClosing_eq_ok hclosing
              refine ⟨token :: (front ++ [last]), ?_,
                .parenthesized hkind hopening hlast hderives⟩
              calc token :: rest = token :: (front ++ inner.rest) := congrArg (token :: ·) hrest
                _ = token :: (front ++ last :: closing.rest) :=
                    congrArg (fun after => token :: (front ++ after)) hafter
                _ = token :: (front ++ [last]) ++ closing.rest := by simp
            · split at h
              · rename_i op hop
                obtain ⟨inner, hinner, h⟩ := bind_eq_ok h
                cases h
                obtain ⟨front, hrest, hderives⟩ := derives_operand rest hinner
                exact ⟨token :: front, congrArg (token :: ·) hrest, .unary hkind hop hderives⟩
              · cases h
        | float | whitespace | preprocessor | blockComment | lineComment | eof =>
            simp only [hkind] at h
            cases h
termination_by (tokens.length, 0)

private theorem derives_links (tokens : List Token) {following : List (BinaryOp × Expr)}
    {after : { rest : List Token // rest.length ≤ tokens.length }}
    (h : links tokens = .ok (following, after)) :
    ∃ front, tokens = front ++ after.1 ∧ LinksOf (Derives operandLevel) front following := by
  match tokens with
  | [] =>
      rw [links] at h
      cases h
      exact ⟨[], rfl, .nil⟩
  | token :: rest =>
      rw [links] at h
      split at h
      · cases h
        exact ⟨[], rfl, .nil⟩
      · rename_i op hop
        obtain ⟨right, hright, h⟩ := bind_eq_ok h
        obtain ⟨⟨more, last⟩, hmore, h⟩ := bind_eq_ok h
        cases h
        have := right.shorter
        obtain ⟨front, hrest, hderives⟩ := derives_operand rest hright
        obtain ⟨back, hafter, hlinks⟩ := derives_links right.rest hmore
        refine ⟨token :: (front ++ back), ?_, .cons hop hderives hlinks⟩
        rw [List.cons_append, List.append_assoc, ← hafter, ← hrest]
termination_by (tokens.length, 0)

private theorem derives_chain (tokens : List Token) {parsed : Parsed Expr tokens}
    (h : chain tokens = .ok parsed) :
    ∃ front, tokens = front ++ parsed.rest ∧ Derives 1 front parsed.value := by
  rw [chain] at h
  obtain ⟨first, hfirst, h⟩ := bind_eq_ok h
  obtain ⟨⟨more, last⟩, hmore, h⟩ := bind_eq_ok h
  cases h
  have := first.shorter
  obtain ⟨front, hrest, hderives⟩ := derives_operand tokens hfirst
  obtain ⟨back, hafter, hlinks⟩ := derives_links first.rest hmore
  refine ⟨front ++ back, ?_, derives_ofChain hderives hlinks⟩
  rw [List.append_assoc, ← hafter, ← hrest]
termination_by (tokens.length, 1)

end

namespace Expr

theorem parse_eq_ok_iff {tokens : List Token} {expr : Expr} :
    parse tokens = .ok expr ↔ Derives 1 tokens expr := by
  constructor
  · intro h
    obtain ⟨⟨value, rest, hshorter⟩, hchain, h⟩ := bind_eq_ok h
    obtain ⟨front, htokens, hderives⟩ := derives_chain tokens hchain
    cases rest with
    | nil =>
        have hexpr : value = expr := Except.ok.inj h
        have hfront : tokens = front := htokens.trans (List.append_nil front)
        rw [← hexpr, hfront]
        exact hderives
    | cons token rest => cases h
  · intro h
    have hreads := h.reads.2.chain_append endsChain_nil
    rw [List.append_nil] at hreads
    obtain ⟨hshorter, hchain⟩ := hreads
    rw [parse, hchain]
    rfl

end Expr

theorem Derives.unique {tokens : List Token} {expr other : Expr} (h : Derives 1 tokens expr)
    (hother : Derives 1 tokens other) : other = expr :=
  Except.ok.inj ((Expr.parse_eq_ok_iff.mpr hother).symm.trans (Expr.parse_eq_ok_iff.mpr h))

end GlslCompose
