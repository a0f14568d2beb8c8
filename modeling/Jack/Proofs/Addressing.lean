import Jack.Proofs.Blocks
import Jack.Proofs.Lexer
import Jack.Proofs.Machine.Command
import Jack.Proofs.Simulation.Subroutine
import Jack.Proofs.SinglePass

/-! Every instruction that a text compiles to is a command of the machine, and reaches no further in a
segment than there are variables declared. -/

namespace Jack

namespace Tree

/-- Variables have places in their segments, and types that can qualify a subroutine. -/
structure Env.Places (env : Env) (sizes : Segment.Sizes) : Prop where
  className : env.className.isName = true
  type : ∀ {x v}, env.find? x = some v → v.type.isName = true
  holds : ∀ {x v}, env.find? x = some v → sizes.Holds v.storage.segment v.index

section

variable {env : Env} {sizes : Segment.Sizes}

theorem Env.Places.holds_get (he : env.Places sizes) {x : Token}
    (h : (Mention.use x).fault env = none) :
    sizes.Holds (env.get x.lexeme).storage.segment (env.get x.lexeme).index := by
  have hx : (env.find? x.lexeme).isSome = true := by
    by_contra hx
    rw [Mention.fault, if_neg hx] at h
    cases h
  obtain ⟨v, hv⟩ := Option.isSome_iff_exists.mp hx
  rw [Env.get, hv]
  exact he.holds hv

theorem isName_of_spelled {x : Name} (h : x.token.Spelled) : x.lexeme.isName = true :=
  h (.inl x.terminal_eq)

theorem wellFormed_stringCode (lexeme : Text) :
    ∀ i ∈ stringCode lexeme, i.WellFormed sizes := by
  have hc : ∀ n : Nat, (Instruction.push .constant n).WellFormed sizes := fun n => ⟨by omega, trivial⟩
  have hnew : (Instruction.call "String.new" 1).WellFormed sizes :=
    ⟨⟨"String", "new", by decide⟩, by decide⟩
  have happ : (Instruction.call "String.appendChar" 2).WellFormed sizes :=
    ⟨⟨"String", "appendChar", by decide⟩, by decide⟩
  intro i hi
  simp only [stringCode, List.mem_cons, List.mem_flatMap, List.not_mem_nil, or_false] at hi
  obtain rfl | rfl | ⟨c, _, rfl | rfl⟩ := hi
  · exact hc _
  · exact hnew
  · exact hc _
  · exact happ

theorem Unary.wellFormed (op : Unary) : op.code.WellFormed sizes := by
  cases op <;> trivial

theorem Operator.wellFormed (op : Operator) : op.code.WellFormed sizes := by
  cases op with
  | mul => exact ⟨⟨"Math", "multiply", by decide⟩, by decide⟩
  | div => exact ⟨⟨"Math", "divide", by decide⟩, by decide⟩
  | _ => trivial

theorem Literal.wellFormed (l : Literal) : ∀ i ∈ l.code, i.WellFormed sizes := by
  cases l <;> simp [Literal.code]

mutual

theorem Term.wellFormed (he : env.Places sizes) : (t : Term) → (∀ x ∈ t.tokens, x.Spelled) →
    (∀ m ∈ t.mentions, m.fault env = none) → ∀ i ∈ t.code env, i.WellFormed sizes
  | .number _, _, _ => by simp
  | .string constant, _, _ => by simpa using wellFormed_stringCode constant.lexeme
  | .literal l _, _, _ => by simpa using l.wellFormed
  | .var x, _, hf => by
    have hx := he.holds_get (hf (.use x.token) (by simp))
    simpa [Env.push] using hx
  | .element x _ index, hs, hf => by
    have hi := index.wellFormed he (fun y hy => hs y (by simp [hy])) fun m hm => hf m (by simp [hm])
    have hx := he.holds_get (hf (.use x.token) (by simp))
    simpa [or_imp, forall_and, Env.push] using ⟨hi, hx⟩
  | .call c, hs, hf => by
    simpa using c.wellFormed he (by simpa using hs) (by simpa using hf)
  | .paren _ e, hs, hf => by
    simpa using e.wellFormed he (fun y hy => hs y (by simp [hy])) (by simpa using hf)
  | .unary op _ t, hs, hf => by
    have ht := t.wellFormed he (fun y hy => hs y (by simp [hy])) (by simpa using hf)
    simpa [or_imp, forall_and] using ⟨ht, op.wellFormed⟩

theorem Expression.wellFormed (he : env.Places sizes) : (e : Expression) → (∀ x ∈ e.tokens, x.Spelled) →
    (∀ m ∈ e.mentions, m.fault env = none) → ∀ i ∈ e.code env, i.WellFormed sizes
  | .mk first rest, hs, hf => by
    have ht := first.wellFormed he (fun y hy => hs y (by simp [hy])) fun m hm => hf m (by simp [hm])
    have hr := rest.wellFormed he (fun y hy => hs y (by simp [hy])) fun m hm => hf m (by simp [hm])
    simpa [or_imp, forall_and] using ⟨ht, hr⟩

theorem Operations.wellFormed (he : env.Places sizes) : (o : Operations) → (∀ x ∈ o.tokens, x.Spelled) →
    (∀ m ∈ o.mentions, m.fault env = none) → ∀ i ∈ o.code env, i.WellFormed sizes
  | .nil, _, _ => by simp
  | .cons op _ t rest, hs, hf => by
    have ht := t.wellFormed he (fun y hy => hs y (by simp [hy])) fun m hm => hf m (by simp [hm])
    have hr := rest.wellFormed he (fun y hy => hs y (by simp [hy])) fun m hm => hf m (by simp [hm])
    simpa [or_imp, forall_and] using ⟨ht, op.wellFormed, hr⟩

theorem Call.wellFormed (he : env.Places sizes) : (c : Call) → (∀ x ∈ c.tokens, x.Spelled) →
    (∀ m ∈ c.mentions, m.fault env = none) → ∀ i ∈ c.code env, i.WellFormed sizes
  | .own f _ args, hs, hf => by
    have ha := args.wellFormed he (fun y hy => hs y (by simp [hy])) (by simpa using hf)
    have hn := isName_of_spelled (hs f.token (by simp))
    have hc := Instruction.wellFormed_call sizes he.className hn (1 + args.count)
    rw [List.append_assoc] at hc
    simpa [or_imp, forall_and] using ⟨ha, hc⟩
  | .qualified x _ f _ args, hs, hf => by
    have ha := args.wellFormed he (fun y hy => hs y (by simp [hy])) (by simpa using hf)
    have hn := isName_of_spelled (hs f.token (by simp))
    rw [Call.code]
    split
    · next v hv =>
      have hc := Instruction.wellFormed_call sizes (he.type hv) hn (1 + args.count)
      simpa [or_imp, forall_and] using ⟨he.holds hv, ha, by simpa using hc⟩
    · have hx := isName_of_spelled (hs x.token (by simp))
      have hc := Instruction.wellFormed_call sizes hx hn args.count
      simpa [or_imp, forall_and] using ⟨ha, by simpa using hc⟩

theorem Arguments.wellFormed (he : env.Places sizes) : (a : Arguments) → (∀ x ∈ a.tokens, x.Spelled) →
    (∀ m ∈ a.mentions, m.fault env = none) → ∀ i ∈ a.code env, i.WellFormed sizes
  | .none, _, _ => by simp
  | .some first rest, hs, hf => by
    have ht := first.wellFormed he (fun y hy => hs y (by simp [hy])) fun m hm => hf m (by simp [hm])
    have hr := rest.wellFormed he (fun y hy => hs y (by simp [hy])) fun m hm => hf m (by simp [hm])
    simpa [or_imp, forall_and] using ⟨ht, hr⟩

theorem MoreArguments.wellFormed (he : env.Places sizes) : (a : MoreArguments) → (∀ x ∈ a.tokens, x.Spelled) →
    (∀ m ∈ a.mentions, m.fault env = none) → ∀ i ∈ a.code env, i.WellFormed sizes
  | .nil, _, _ => by simp
  | .cons _ e rest, hs, hf => by
    have ht := e.wellFormed he (fun y hy => hs y (by simp [hy])) fun m hm => hf m (by simp [hm])
    have hr := rest.wellFormed he (fun y hy => hs y (by simp [hy])) fun m hm => hf m (by simp [hm])
    simpa [or_imp, forall_and] using ⟨ht, hr⟩

end

mutual

theorem Statement.wellFormed (he : env.Places sizes) : (st : Statement) → (n w : Nat) →
    (∀ x ∈ st.tokens, x.Spelled) → (∀ m ∈ st.mentions, m.fault env = none) →
    ∀ i ∈ st.code env n w, i.WellFormed sizes
  | .letVar _ x _ value _, _, _, hs, hf => by
    have hv := value.wellFormed he (fun y hy => hs y (by simp [hy])) fun m hm => hf m (by simp [hm])
    have hx := he.holds_get (hf (.use x.token) (by simp))
    simpa [or_imp, forall_and, Env.pop] using ⟨hv, hx⟩
  | .letElement _ x _ index _ value _, _, _, hs, hf => by
    have hi := index.wellFormed he (fun y hy => hs y (by simp [hy])) fun m hm => hf m (by simp [hm])
    have hv := value.wellFormed he (fun y hy => hs y (by simp [hy])) fun m hm => hf m (by simp [hm])
    have hx := he.holds_get (hf (.use x.token) (by simp))
    simpa [or_imp, forall_and, Env.push] using ⟨hi, hx, hv⟩
  | .ifThen _ _ cond _ body, n, w, hs, hf => by
    have hc := cond.wellFormed he (fun y hy => hs y (by simp [hy])) fun m hm => hf m (by simp [hm])
    have hb := body.wellFormed he (n + 1) w (fun y hy => hs y (by simp [hy]))
      fun m hm => hf m (by simp [hm])
    simpa [or_imp, forall_and] using ⟨hc, hb⟩
  | .ifElse _ _ cond _ body _ _ elseBody, n, w, hs, hf => by
    have hc := cond.wellFormed he (fun y hy => hs y (by simp [hy])) fun m hm => hf m (by simp [hm])
    have hb := body.wellFormed he (n + 1) w (fun y hy => hs y (by simp [hy]))
      fun m hm => hf m (by simp [hm])
    have hl := elseBody.wellFormed he (n + 1 + body.ifs) (w + body.whiles)
      (fun y hy => hs y (by simp [hy])) fun m hm => hf m (by simp [hm])
    simpa [or_imp, forall_and] using ⟨hc, hb, hl⟩
  | .while _ _ cond _ body, n, w, hs, hf => by
    have hc := cond.wellFormed he (fun y hy => hs y (by simp [hy])) fun m hm => hf m (by simp [hm])
    have hb := body.wellFormed he n (w + 1) (fun y hy => hs y (by simp [hy]))
      fun m hm => hf m (by simp [hm])
    simpa [or_imp, forall_and] using ⟨hc, hb⟩
  | .do _ c _, _, _, hs, hf => by
    have hc := c.wellFormed he (fun y hy => hs y (by simp [hy])) fun m hm => hf m (by simp [hm])
    simpa [or_imp, forall_and] using hc
  | .return _ _, _, _, _, _ => by simp
  | .returnValue _ value _, _, _, hs, hf => by
    have hv := value.wellFormed he (fun y hy => hs y (by simp [hy])) fun m hm => hf m (by simp [hm])
    simpa [or_imp, forall_and] using hv

theorem Statements.wellFormed (he : env.Places sizes) : (sts : Statements) → (n w : Nat) →
    (∀ x ∈ sts.tokens, x.Spelled) → (∀ m ∈ sts.mentions, m.fault env = none) →
    ∀ i ∈ sts.code env n w, i.WellFormed sizes
  | .nil, _, _, _, _ => by simp
  | .cons first rest, n, w, hs, hf => by
    have ht := first.wellFormed he n w (fun y hy => hs y (by simp [hy])) fun m hm => hf m (by simp [hm])
    have hr := rest.wellFormed he (n + first.ifs) (w + first.whiles) (fun y hy => hs y (by simp [hy]))
      fun m hm => hf m (by simp [hm])
    simpa [or_imp, forall_and] using ⟨ht, hr⟩

end

end

/-! The types of variables are names. -/

theorem isName_of_type {type : Leaf Pass.typeTerminals} (h : type.token.Spelled) :
    type.lexeme.isName = true := by
  have ht := type.terminal_mem
  simp only [Pass.typeTerminals, List.mem_cons, List.not_mem_nil, or_false] at ht
  obtain ht | ht | ht | ht := ht
  · exact h (.inr (by rw [ht]; rfl))
  · exact h (.inr (by rw [ht]; rfl))
  · exact h (.inr (by rw [ht]; rfl))
  · exact h (.inl ht)

theorem VarNames.isName_type {v : VarNames} {storage : Storage} (h : ∀ x ∈ v.tokens, x.Spelled)
    {y : Declaration} (hy : y ∈ v.declarations storage) : y.type.isName = true := by
  obtain ⟨_, _, rfl⟩ := List.mem_map.mp hy
  exact isName_of_type (h v.type.token (by simp [tokens]))

theorem ParameterList.type_mem_tokens {ps : ParameterList} {p : Parameter} (h : p ∈ ps.parameters) :
    p.type.token ∈ ps.tokens := by
  cases ps with
  | none => simp [parameters] at h
  | some first rest =>
    rw [tokens, List.mem_append]
    obtain rfl | h := List.mem_cons.mp h
    · exact .inl (by simp [Parameter.tokens])
    · obtain ⟨f, hf, rfl⟩ := List.mem_map.mp h
      exact .inr (List.mem_flatMap.mpr ⟨f, hf, by simp [Parameter.tokens]⟩)

theorem SubroutineDec.isName_type {d : SubroutineDec} {className : Text}
    (hc : className.isName = true) (h : ∀ x ∈ d.tokens, x.Spelled) {y : Declaration}
    (hy : y ∈ d.declarations className) : y.type.isName = true := by
  obtain hy | hy := List.mem_append.mp hy
  · obtain hy | hy := List.mem_append.mp hy
    · unfold SubroutineKind.receiver at hy
      split at hy <;> simp_all
    · obtain ⟨p, hp, rfl⟩ := List.mem_map.mp hy
      have ht := ParameterList.type_mem_tokens hp
      exact isName_of_type (h p.type.token (by simp [tokens, ht]))
  · obtain ⟨v, hv, hy⟩ := List.mem_flatMap.mp hy
    refine VarNames.isName_type (fun x hx => h x ?_) hy
    have hm : x ∈ d.vars.flatMap VarDec.tokens :=
      List.mem_flatMap.mpr ⟨v, hv, List.mem_cons_of_mem _ hx⟩
    simp only [tokens, Pair.tokens, List.mem_append, List.mem_cons, hm]
    simp

theorem ClassDec.isName_type {c : ClassDec} (h : ∀ x ∈ c.tokens, x.Spelled) {y : Declaration}
    (hy : y ∈ c.declarations) : y.type.isName = true := by
  obtain ⟨v, hv, hy⟩ := List.mem_flatMap.mp hy
  refine VarNames.isName_type (fun x hx => h x ?_) hy
  have hm : x ∈ c.vars.flatMap ClassVarDec.tokens :=
    List.mem_flatMap.mpr ⟨v, hv, List.mem_cons_of_mem _ hx⟩
  simp only [tokens, Pair.tokens, List.mem_append, List.mem_cons, hm]
  simp

namespace SubroutineDec

/-- How many words a subroutine has in each segment, in a class of the given declarations. A name that is
declared twice counts twice. -/
def sizes (ofClass : List Declaration) (d : SubroutineDec) : Segment.Sizes where
  locals := d.localNames.length
  arguments := d.parameters.parameters.length + if d.kind = .method then 1 else 0
  fields := ofClass.countP (·.storage = .field)
  statics := ofClass.countP (·.storage = .static)

variable (d : SubroutineDec) (className : Text) (ofClass : List Declaration)

theorem countP_argument_declarations :
    (d.declarations className).countP (·.storage = .argument) = (d.sizes ofClass).arguments := by
  have ha : (d.argumentDeclarations className).countP (·.storage = .argument) =
      (d.argumentDeclarations className).length :=
    List.countP_eq_length.mpr fun x hx => by simp [d.storage_of_mem_arguments hx]
  have hl : d.localDeclarations.countP (·.storage = .argument) = 0 :=
    List.countP_eq_zero.mpr fun x hx => by simp [d.storage_of_mem_locals hx]
  rw [declarations, List.countP_append, ha, hl, Nat.add_zero, argumentDeclarations, List.length_append,
    List.length_map, Nat.add_comm]
  unfold sizes
  cases d.kind <;> rfl

/-- The variables of a subroutine have places. -/
theorem places {d : SubroutineDec} {className : Text} {ofClass : List Declaration}
    (hn : className.isName = true) (hs : ∀ x ∈ d.tokens, x.Spelled)
    (ht : ∀ y ∈ ofClass, y.type.isName = true) (hc : ∀ y ∈ ofClass, y.storage.ofClass = true) :
    (d.env className ofClass).Places (d.sizes ofClass) where
  className := hn
  type := by
    intro x v hv
    obtain hv | ⟨-, hv⟩ := Option.or_eq_some_iff.mp hv
    · obtain ⟨y, hy, earlier, rfl⟩ := Declaration.exists_place hv
      exact isName_type hn hs (List.mem_reverse.mp hy)
    · obtain ⟨y, hy, earlier, rfl⟩ := Declaration.exists_place hv
      exact ht y (List.mem_reverse.mp hy)
  holds := by
    intro x v hv
    refine ⟨by omega, ?_⟩
    obtain hv | ⟨-, hv⟩ := Option.or_eq_some_iff.mp hv
    · have hi := Declaration.index_lt_of_find? hv
      obtain ⟨y, hy, hst⟩ := Declaration.storage_mem_of_find? hv
      rw [List.countP_reverse, ← hst] at hi
      rw [← hst]
      obtain hy | hy := List.mem_append.mp (List.mem_reverse.mp hy)
      · rw [d.storage_of_mem_arguments hy] at hi ⊢
        rw [d.countP_argument_declarations className ofClass] at hi
        exact Int.ofNat_lt.mpr hi
      · rw [d.storage_of_mem_locals hy] at hi ⊢
        rw [d.countP_var_declarations className] at hi
        exact Int.ofNat_lt.mpr hi
    · have hi := Declaration.index_lt_of_find? hv
      obtain ⟨y, hy, hst⟩ := Declaration.storage_mem_of_find? hv
      rw [List.countP_reverse] at hi
      have hy := hc y (List.mem_reverse.mp hy)
      rw [hst] at hy
      generalize v.storage = storage at hi hy
      cases storage with
      | static | field => exact Int.ofNat_lt.mpr hi
      | _ => cases hy

/-- A block of code is a subroutine that stays inside its segments. -/
structure Addressed (block : List Instruction) : Prop where
  /-- The block starts with the number of its locals. -/
  head : block.head? = some (.function (className ++ "." ++ d.name.lexeme) (d.sizes ofClass).locals)
  wellFormed : ∀ i ∈ block, i.WellFormed (d.sizes ofClass)
  /-- A constructor allocates a word for every field. -/
  alloc : d.kind = .constructor →
    [.push .constant (d.sizes ofClass).fields, .call "Memory.alloc" 1, .pop .pointer 0] <+: block.tail

theorem addressed {d : SubroutineDec} {className : Text} {ofClass : List Declaration}
    (hn : className.isName = true) (hs : ∀ x ∈ d.tokens, x.Spelled)
    (he : (d.env className ofClass).Places (d.sizes ofClass))
    (hf : ∀ m ∈ d.body.mentions, m.fault (d.env className ofClass) = none) :
    d.Addressed className ofClass (d.code className ofClass) where
  head := rfl
  wellFormed := by
    have hname : d.name.lexeme.isName = true := isName_of_spelled (hs _ (by simp [tokens]))
    have hp : ∀ i ∈ d.kind.prologue (ofClass.countP (·.storage = .field)),
        i.WellFormed (d.sizes ofClass) := by
      cases hk : d.kind with
      | constructor =>
        have ha : (Instruction.call "Memory.alloc" 1).WellFormed (d.sizes ofClass) :=
          ⟨⟨"Memory", "alloc", by decide⟩, by decide⟩
        simpa [SubroutineKind.prologue] using ha
      | function => simp [SubroutineKind.prologue]
      | method => simp [SubroutineKind.prologue, Segment.Sizes.Holds, sizes, hk]
    have hb := d.body.wellFormed he 0 0 (fun x hx => hs x (by simp [tokens, hx])) hf
    intro i hi
    rw [code, List.cons_append, List.mem_cons, List.mem_append] at hi
    obtain rfl | hi | hi := hi
    · exact ⟨⟨className, d.name.lexeme, hn, hname, rfl⟩, by omega⟩
    · exact hp i hi
    · exact hb i hi
  alloc := by
    intro hk
    rw [code, hk]
    exact List.prefix_append _ _

end SubroutineDec

/-- The subroutines of a class without fault, whose words are names. -/
theorem ClassDec.addressed {c : ClassDec} (hs : ∀ x ∈ c.tokens, x.Spelled)
    (hf : c.effect.fault = none) {d : SubroutineDec} (hd : d ∈ c.subroutines) :
    d.Addressed c.name.lexeme c.declarations (d.code c.name.lexeme c.declarations) := by
  have hn : c.name.lexeme.isName = true := isName_of_spelled (hs _ (by simp [tokens]))
  have hds : ∀ x ∈ d.tokens, x.Spelled := by
    intro x hx
    have hm : x ∈ c.subroutines.flatMap SubroutineDec.tokens := List.mem_flatMap.mpr ⟨d, hd, hx⟩
    refine hs x ?_
    simp only [tokens, Pair.tokens, List.mem_append, List.mem_cons, hm]
    simp
  have he := SubroutineDec.places hn hds (fun y hy => c.isName_type hs hy)
    fun y hy => ofClass_of_mem_classVarDecs hy
  refine SubroutineDec.addressed hn hds he ?_
  have hfd : (d.effect c.name.lexeme c.declarations).fault = none :=
    List.findSome?_eq_none_iff.mp hf _ (List.mem_map_of_mem hd)
  exact (fault_eq_none_iff _ _).mp hfd

end Tree

open Jack.Tree

/-- The lines that a text compiles to are commands of the machine, and the blocks of its subroutines stay
inside their segments. -/
theorem compileText_wellFormed {s : Text} {u : Compiled} (h : compileText s = .ok u) :
    Text.splitOn Byte.newline u.code = u.codeLines ++ [[]] ∧
      (∀ i ∈ u.instructions, Instruction.parse? i.text = some i.plain) ∧
      (∃ c : ClassDec, c.tokens = (Lexer.ofText s).toSource.beforeEnd) ∧
      ∀ c : ClassDec, c.tokens = (Lexer.ofText s).toSource.beforeEnd →
        ∃ blocks, Machine.splitBlocks u.instructions = ([], blocks) ∧
          List.Forall₂ (fun d block => d.Addressed c.name.lexeme c.declarations block)
            c.subroutines blocks := by
  have ha : ∀ c : ClassDec, c.tokens = (Lexer.ofText s).toSource.beforeEnd →
      c.effect.fault = none → ∀ d ∈ c.subroutines,
        d.Addressed c.name.lexeme c.declarations (d.code c.name.lexeme c.declarations) := by
    intro c hc hf d hd
    refine ClassDec.addressed (fun x hx => ?_) hf hd
    rw [hc] at hx
    exact Lexer.spelled_of_mem_tokens _ x ((List.takeWhile_sublist _).subset hx)
  obtain ⟨c, hc, hf, rfl⟩ := exists_class_of_ok h
  have hw : ∀ i ∈ c.code, ∃ sizes, i.WellFormed sizes := by
    intro i hi
    obtain ⟨d, hd, hi⟩ := List.mem_flatMap.mp hi
    exact ⟨_, (ha c hc hf d hd).wellFormed i hi⟩
  refine ⟨Text.splitOn_unlines ?_, ?_, ⟨c, hc⟩, fun c' hc' => ⟨_, splitBlocks_of_ok h hc', ?_⟩⟩
  · intro l hl
    obtain ⟨i, hi, rfl⟩ := List.mem_map.mp hl
    obtain ⟨sizes, hi⟩ := hw i hi
    exact Instruction.newline_not_mem_text hi
  · intro i hi
    obtain ⟨sizes, hi⟩ := hw i hi
    exact Instruction.parse?_text hi
  · rw [List.forall₂_map_right_iff, List.forall₂_same]
    refine ha c' hc' ?_
    have ho : (compile (Lexer.ofText s).toSource).outcome = _ := h
    rw [outcome_of_tokens c' hc'] at ho
    split at ho
    · assumption
    · cases ho

namespace Counter

/-- The class as a source spells it. -/
def text : Text :=
  "class Counter \x7b field int n; method int add(int k) \x7b " ++
    "while (k > 0) \x7b let n = n + 1; let k = k - 1; \x7d return n; \x7d \x7d"

theorem tokens_text : (Lexer.ofText text).toSource.tokens = tree.tokens := by decide +kernel

theorem beforeEnd_text : tree.tokens = (Lexer.ofText text).toSource.beforeEnd :=
  (beforeEnd_of_tokens tree tokens_text).symm

theorem outcome_text : compileText text = .ok ⟨"Counter", tree.code, tree.entries⟩ := by
  have h := outcome_of_tokens tree beforeEnd_text
  rwa [fault_tree] at h

end Counter

theorem compileText_wellFormed_counter :
    ∃ u, compileText Counter.text = .ok u ∧
      (∀ i ∈ u.instructions, Instruction.parse? i.text = some i.plain) ∧
      ∃ block, Machine.splitBlocks u.instructions = ([], [block]) ∧
        Counter.add.Addressed "Counter" Counter.tree.declarations block := by
  obtain ⟨-, hp, -, hb⟩ := compileText_wellFormed Counter.outcome_text
  obtain ⟨blocks, hs, ha⟩ := hb Counter.tree Counter.beforeEnd_text
  cases ha with
  | cons hd ht =>
    cases ht
    exact ⟨_, Counter.outcome_text, hp, _, hs, hd⟩

end Jack
