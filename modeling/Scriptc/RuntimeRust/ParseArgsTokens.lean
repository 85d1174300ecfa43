import Scriptc.Lib.Loop
import Scriptc.RuntimeRust.UtilParseArgs

/-!
# The tokens of `util.parseArgs`

What the two loops read is what the tokens say. Every argument is spelled by the tokens at its own
index, or is the value of the option before it, and the values and positionals are the tokens, read
one after another. The defaults come to the values unless the key of an option is no `str`, and what
it is coerced to has a value (`utilParseArgs_consistent`).
-/

namespace Scriptc.RuntimeRust.ParseArgs

open List

open PosixPath (JsString)
open JsStrings (Units fromUtf16 encodeUtf16)

/-! ### What a token says -/

namespace Token

def index : Token → ℕ
  | option _ _ i _ _ => i
  | positional i _ => i
  | terminator i => i

/-- The index of the argument that is the value of an option. -/
def separate : Token → Option ℕ
  | option _ _ i (some _) (some false) => some (i + 1)
  | _ => none

def positionalValue : Token → Option Value
  | positional _ v => some v
  | _ => none

/-- The option that a raw name stands for: a dash and a short option, or two dashes and a long one. -/
def longName (options : Option Value) : Text → Text
  | ['-', c] => (findShort options [c]).1
  | raw => raw.drop 2

/-- What is stored for a token. A flag is false where its raw name stands for `no-` and its name; only
then `__proto__` is stored. -/
def stored (options : Option Value) : Token → Option (Text × Value)
  | option name _ _ (some v) _ => if name = proto then none else some (name, v)
  | option name raw _ none _ =>
    if longName options raw ≠ name then some (name, .boolean false)
    else if name = proto then none
    else some (name, .boolean true)
  | _ => none

end Token

/-- An option with several values keeps all of them, any other the last. -/
def put (options : Option Value) (values : Object) (entry : Text × Value) : Object :=
  if (findLong options entry.1).any descMultiple then
    values.set (.utf8 entry.1) (.array (((values.own entry.1).bind Value.items).getD [] ++ [entry.2]))
  else values.set (.utf8 entry.1) entry.2

def Token.apply (options : Option Value) (values : Object) (token : Token) : Object :=
  (token.stored options).elim values (put options values)

/-- What an object has at a key. -/
def Object.get (entries : Object) (key : Units) : Option Value := (entries.find? fun entry => encodeUtf16 entry.1 = key).map (·.2)

/-- What is stored for an option, one after another. -/
def storedFor (options : Option Value) (ts : List Token) (key : Units) : List Value :=
  ts.filterMap fun t => (t.stored options).bind fun entry => if Utf16.encode entry.1 = key then some entry.2 else none

/-- The value of an option that the tokens store. -/
def kept (options : Option Value) (ts : List Token) (key : Units) : Option Value :=
  if storedFor options ts key = [] then none
  else if ((options.bind Value.entries).bind (Object.get · key)).any descMultiple then some (.array (storedFor options ts key))
  else (storedFor options ts key).getLast?

/-- The default of an option. -/
def Object.defaultOf (entries : Object) (key : Units) : Option Value :=
  if key = Utf16.encode proto then none
  else entries.findSome? fun entry => if encodeUtf16 entry.1 = key then descDefault entry.2 else none

/-- The value of an option: what the tokens store, or the default. -/
def folded (options : Option Value) (ts : List Token) (key : Units) : Option Value :=
  (kept options ts key).or (((options.bind Value.entries).getD []).defaultOf key)

/-! ### What the tokens at an index spell -/

variable {options : Option Value} {i : ℕ}

/-- The name of a flag, or without `no-`. -/
def Flag (options : Option Value) (raw name : Text) : Prop :=
  Token.longName options raw = name ∨ Token.longName options raw = no ++ name

/-- The tokens of a group of short options: flags, and at the end an option with a value, which is the
rest of the group or the next argument. -/
inductive Group (options : Option Value) (i : ℕ) : Units → List Token → Option Value → Prop
  | nil : Group options i [] [] none
  | flag {unit : UInt16} {units : Units} {name : Text} {ts : List Token} {value : Option Value} :
      Flag options ('-' :: unitText unit) name → Group options i units ts value →
      Group options i (unit :: units) (.option name ('-' :: unitText unit) i none none :: ts) value
  | inlined {unit : UInt16} {units : Units} : units ≠ [] →
      Group options i (unit :: units)
        [.option (findShort options (unitText unit)).1 ('-' :: unitText unit) i (some (.string (fromUtf16 units))) (some true)] none
  | separate {unit : UInt16} {value : Value} :
      Group options i [unit] [.option (findShort options (unitText unit)).1 ('-' :: unitText unit) i (some value) (some false)] (some value)

/-- What an argument is read as, and the value that is the next argument. -/
inductive Spells (options : Option Value) (i : ℕ) : Value → List Token → Option Value → Prop
  | positional {v : Value} : Spells options i v [.positional i v] none
  | terminator {s : JsString} : eqStr s dashes = true → Spells options i (.string s) [.terminator i] none
  | flag {s : JsString} {name : Text} : dashes.isPrefixOf (deref s) = true → Flag options (deref s) name →
      Spells options i (.string s) [.option name (deref s) i none none] none
  | inlined {s : JsString} {name value : Text} : deref s = dashes ++ name ++ ['='] ++ value →
      Spells options i (.string s) [.option name (dashes ++ name) i (some (.string (.utf8 value))) (some true)] none
  | separate {s : JsString} {name : Text} {value : Value} : deref s = dashes ++ name →
      Spells options i (.string s) [.option name (deref s) i (some value) (some false)] (some value)
  | group {s : JsString} {units : Units} {ts : List Token} {value : Option Value} : (encodeUtf16 s).drop 1 = units → units ≠ [] →
      Group options i units ts value → Spells options i (.string s) ts value

/-- Arguments up to an index are read as some tokens. -/
inductive Reads (options : Option Value) (args : List Value) : ℕ → List Token → Prop
  | nil : Reads options args 0 []
  | own {i : ℕ} {ts own : List Token} {arg : Value} : Reads options args i ts → args[i]? = some arg → Spells options i arg own none →
      Reads options args (i + 1) (ts ++ own)
  | separate {i : ℕ} {ts own : List Token} {arg value : Value} : Reads options args i ts → args[i]? = some arg →
      args[i + 1]? = some value → Spells options i arg own (some value) → Reads options args (i + 2) (ts ++ own)

theorem Group.tokens {units : Units} {ts : List Token} {value : Option Value} (h : Group options i units ts value) :
    (units ≠ [] → ts ≠ []) ∧ (∀ t ∈ ts, t.index = i) ∧ ts.filterMap Token.separate = if value.isSome then [i + 1] else [] := by
  induction h with
  | nil => exact ⟨fun h => absurd rfl h, fun t ht => absurd ht not_mem_nil, rfl⟩
  | flag _ _ ih =>
    refine ⟨fun _ => cons_ne_nil _ _, forall_mem_cons.mpr ⟨rfl, ih.2.1⟩, ?_⟩
    rw [filterMap_cons_none rfl]
    exact ih.2.2
  | inlined => exact ⟨fun _ => cons_ne_nil _ _, forall_mem_singleton.mpr rfl, rfl⟩
  | separate => exact ⟨fun _ => cons_ne_nil _ _, forall_mem_singleton.mpr rfl, rfl⟩

theorem Spells.tokens {arg : Value} {ts : List Token} {value : Option Value} (h : Spells options i arg ts value) :
    ts ≠ [] ∧ (∀ t ∈ ts, t.index = i) ∧ ts.filterMap Token.separate = if value.isSome then [i + 1] else [] := by
  cases h with
  | group _ hne hgroup => exact ⟨hgroup.tokens.1 hne, hgroup.tokens.2⟩
  | positional => exact ⟨cons_ne_nil _ _, forall_mem_singleton.mpr rfl, rfl⟩
  | terminator => exact ⟨cons_ne_nil _ _, forall_mem_singleton.mpr rfl, rfl⟩
  | flag => exact ⟨cons_ne_nil _ _, forall_mem_singleton.mpr rfl, rfl⟩
  | inlined => exact ⟨cons_ne_nil _ _, forall_mem_singleton.mpr rfl, rfl⟩
  | separate => exact ⟨cons_ne_nil _ _, forall_mem_singleton.mpr rfl, rfl⟩

/-- Every argument is spelled by the tokens at its index, or is the value of the option before it, and
it is that once. -/
def AccountedOnce (options : Option Value) (args : List Value) (n : ℕ) (ts : List Token) : Prop :=
  ∀ i < n, ∀ arg, args[i]? = some arg →
    (∃ value, Spells options i arg (ts.filter (·.index = i)) value ∧ (∀ v, value = some v → args[i + 1]? = some v) ∧
      (ts.filterMap Token.separate).count i = 0) ∨
    ts.filter (·.index = i) = [] ∧ (ts.filterMap Token.separate).count i = 1

variable {args : List Value} {n : ℕ} {ts : List Token}

theorem Reads.lt (h : Reads options args n ts) : (∀ t ∈ ts, t.index < n) ∧ ∀ j ∈ ts.filterMap Token.separate, j < n := by
  induction h with
  | nil => exact ⟨fun t ht => absurd ht not_mem_nil, fun j hj => absurd hj not_mem_nil⟩
  | @own i ts own arg hr harg hs ih =>
    obtain ⟨-, hown, hseparate⟩ := hs.tokens
    refine ⟨fun t ht => ?_, fun j hj => ?_⟩
    · rcases mem_append.mp ht with ht | ht
      · exact (ih.1 t ht).trans (Nat.lt_succ_self i)
      · rw [hown t ht]
        exact Nat.lt_succ_self i
    · rw [filterMap_append, hseparate] at hj
      exact (ih.2 j (by simpa using hj)).trans (Nat.lt_succ_self i)
  | @separate i ts own arg value hr harg hvalue hs ih =>
    obtain ⟨-, hown, hseparate⟩ := hs.tokens
    refine ⟨fun t ht => ?_, fun j hj => ?_⟩
    · rcases mem_append.mp ht with ht | ht
      · exact (ih.1 t ht).trans (by omega)
      · rw [hown t ht]
        omega
    · rw [filterMap_append, hseparate] at hj
      rcases mem_append.mp hj with hj | hj
      · exact (ih.2 j hj).trans (by omega)
      · have hone : j = i + 1 := by simpa using hj
        omega

theorem Reads.sorted (h : Reads options args n ts) : (ts.map Token.index).Pairwise (· ≤ ·) := by
  have happend : ∀ {i own arg value} {ts : List Token}, Reads options args i ts → Spells options i arg own value →
      (ts.map Token.index).Pairwise (· ≤ ·) → ((ts ++ own).map Token.index).Pairwise (· ≤ ·) := by
    intro i own arg value ts hr hs ih
    obtain ⟨-, hown, -⟩ := hs.tokens
    rw [map_append, pairwise_append]
    have hsame : own.map Token.index = replicate own.length i := by
      rw [eq_replicate_iff]
      exact ⟨length_map _, fun j hj => by obtain ⟨t, ht, rfl⟩ := mem_map.mp hj; exact hown t ht⟩
    refine ⟨ih, ?_, ?_⟩
    · rw [hsame]
      exact pairwise_replicate.mpr (.inr le_rfl)
    · intro a ha b hb
      obtain ⟨t, ht, rfl⟩ := mem_map.mp ha
      obtain ⟨t', ht', rfl⟩ := mem_map.mp hb
      rw [hown t' ht']
      exact (hr.lt.1 t ht).le
  induction h with
  | nil => exact .nil
  | own hr _ hs ih => exact happend hr hs ih
  | separate hr _ _ hs ih => exact happend hr hs ih

theorem Reads.accountedOnce (h : Reads options args n ts) : AccountedOnce options args n ts := by
  -- the tokens at an index that has been passed stay as they are
  have hkeep : ∀ {k own ts'}, (∀ t ∈ own, t.index = k) → (∀ j ∈ own.filterMap Token.separate, j = k + 1) → AccountedOnce options args k ts' →
      ∀ i < k, ∀ arg, args[i]? = some arg →
        (∃ value, Spells options i arg ((ts' ++ own).filter (·.index = i)) value ∧ (∀ v, value = some v → args[i + 1]? = some v) ∧
          ((ts' ++ own).filterMap Token.separate).count i = 0) ∨
        (ts' ++ own).filter (·.index = i) = [] ∧ ((ts' ++ own).filterMap Token.separate).count i = 1 := by
    intro k own ts' hown hseparate ih i hi arg harg
    have hfilter : own.filter (·.index = i) = [] := by
      rw [filter_eq_nil_iff]
      intro t ht hti
      have hk := hown t ht
      have hi' := of_decide_eq_true hti
      omega
    have hcount : (own.filterMap Token.separate).count i = 0 := by
      rw [count_eq_zero]
      intro hmem
      have hk := hseparate i hmem
      omega
    rw [filter_append, hfilter, append_nil, filterMap_append, count_append, hcount, Nat.add_zero]
    exact ih i hi arg harg
  -- the argument that the tokens at the last index spell
  have hlast : ∀ {k own ts' arg value}, Reads options args k ts' → Spells options k arg own value →
      (ts' ++ own).filter (·.index = k) = own ∧ ((ts' ++ own).filterMap Token.separate).count k = 0 := by
    intro k own ts' arg value hr hs
    obtain ⟨-, hown, hseparate⟩ := hs.tokens
    have hbefore : ts'.filter (·.index = k) = [] := by
      rw [filter_eq_nil_iff]
      intro t ht htk
      have hlt := hr.lt.1 t ht
      have hk := of_decide_eq_true htk
      omega
    have hall : own.filter (·.index = k) = own := by
      rw [filter_eq_self]
      exact fun t ht => decide_eq_true (hown t ht)
    refine ⟨by rw [filter_append, hbefore, hall, nil_append], ?_⟩
    rw [count_eq_zero, filterMap_append, mem_append, hseparate]
    rintro (hmem | hmem)
    · exact absurd (hr.lt.2 k hmem) (Nat.lt_irrefl k)
    · split at hmem
      · have hk := mem_singleton.mp hmem
        omega
      · cases hmem
  induction h with
  | nil => exact fun i hi => absurd hi (Nat.not_lt_zero i)
  | @own k ts own arg hr harg hs ih =>
    obtain ⟨-, hown, hseparate⟩ := hs.tokens
    intro i hi arg' harg'
    rcases Nat.lt_succ_iff_lt_or_eq.mp hi with hlt | rfl
    · exact hkeep hown (by rw [hseparate]; exact fun j hj => absurd hj not_mem_nil) ih i hlt arg' harg'
    · obtain rfl : arg = arg' := Option.some.inj (harg.symm.trans harg')
      obtain ⟨hfilter, hcount⟩ := hlast hr hs
      exact .inl ⟨none, by rw [hfilter]; exact hs, fun v hv => (by cases hv), hcount⟩
  | @separate k ts own arg value hr harg hvalue hs ih =>
    obtain ⟨-, hown, hseparate⟩ := hs.tokens
    intro i hi arg' harg'
    rcases Nat.lt_succ_iff_lt_or_eq.mp hi with hlt | rfl
    · rcases Nat.lt_succ_iff_lt_or_eq.mp hlt with hlt | rfl
      · exact hkeep hown (by rw [hseparate]; exact fun j hj => mem_singleton.mp hj) ih i hlt arg' harg'
      · obtain rfl : arg = arg' := Option.some.inj (harg.symm.trans harg')
        obtain ⟨hfilter, hcount⟩ := hlast hr hs
        exact .inl ⟨some value, by rw [hfilter]; exact hs, fun v hv => by rw [← hv]; exact hvalue, hcount⟩
    · right
      refine ⟨?_, ?_⟩
      · rw [filter_eq_nil_iff]
        intro t ht hti
        have hk := of_decide_eq_true hti
        rcases mem_append.mp ht with ht | ht
        · have hlt := hr.lt.1 t ht
          omega
        · have hk' := hown t ht
          omega
      · have hbefore : (ts.filterMap Token.separate).count (k + 1) = 0 := by
          rw [count_eq_zero]
          intro hmem
          have hlt := hr.lt.2 _ hmem
          omega
        rw [filterMap_append, count_append, hbefore, hseparate]
        simp

/-! ### What a turn records -/

theorem bind_ok {α β : Type} {x : Except Failure α} {f : α → Except Failure β} {b : β} (h : x >>= f = .ok b) :
    ∃ a, x = .ok a ∧ f a = .ok b := Except.bind_eq_ok.mp h

theorem map_ok {α β : Type} {x : Except Failure α} {f : α → β} {b : β} (h : x.map f = .ok b) : ∃ a, x = .ok a ∧ f a = b := by
  cases x with
  | error e => cases h
  | ok a => exact ⟨a, rfl, Except.ok.inj h⟩

/-- A later state holds what some more tokens say. -/
structure Holds (options : Option Value) (own : List Token) (s s' : State) : Prop where
  tokens : s'.tokens = s.tokens.map (· ++ own)
  values : s'.values = own.foldl (Token.apply options) s.values
  positionals : s'.positionals = s.positionals ++ own.filterMap Token.positionalValue

theorem Holds.nil (s : State) : Holds options [] s s where
  tokens := by cases s.tokens <;> simp
  values := rfl
  positionals := (append_nil _).symm

theorem Holds.append {own own' : List Token} {s s' s'' : State} (h : Holds options own s s') (h' : Holds options own' s' s'') :
    Holds options (own ++ own') s s'' where
  tokens := by rw [h'.tokens, h.tokens, Option.map_map]; simp [Function.comp_def, append_assoc]
  values := by rw [h'.values, h.values, foldl_append]
  positionals := by rw [h'.positionals, h.positionals, filterMap_append, append_assoc]

/-- Some more tokens have been recorded for the same argument. -/
structure Records (options : Option Value) (own : List Token) (s s' : State) : Prop extends Holds options own s s' where
  afterTerminator : s'.afterTerminator = s.afterTerminator

/-- The loop has not gone on. -/
def Stays (s s' : State) : Prop := s'.index = s.index ∧ s'.consumed = s.consumed

theorem Records.nil (s : State) : Records options [] s s := ⟨.nil s, rfl⟩

theorem Records.append {own own' : List Token} {s s' s'' : State} (h : Records options own s s') (h' : Records options own' s' s'') :
    Records options (own ++ own') s s'' := ⟨h.toHolds.append h'.toHolds, h'.afterTerminator.trans h.afterTerminator⟩

section Store

variable {c : Settings} {s s' : State} {name raw : Text} {index : ℕ} {value : Option Value} {flagValue withholdProto : Bool}
  {inlineValue : Option Bool}

/-- **`pa_store`** stores what its token says. -/
theorem store_records (h : s.store (findLong options name) name raw index value flagValue inlineValue withholdProto = .ok s')
    (htoken : (Token.option name raw index value inlineValue).stored options =
      if withholdProto && name = proto then none else some (name, value.getD (.boolean flagValue))) :
    Records options [.option name raw index value inlineValue] s s' ∧ Stays s s' := by
  have hvalues : ∀ values, s' = { s with values := values }.push (.option name raw index value inlineValue) →
      values = Token.apply options s.values (.option name raw index value inlineValue) →
      Records options [.option name raw index value inlineValue] s s' ∧ Stays s s' := by
    rintro values rfl hvalues
    exact ⟨⟨⟨rfl, hvalues, (append_nil _).symm⟩, rfl⟩, rfl, rfl⟩
  rw [Token.apply, htoken] at hvalues
  simp only [State.store] at h
  split at h
  · rename_i hproto
    rw [if_pos hproto] at hvalues
    exact hvalues s.values (Except.ok.inj h).symm rfl
  · rename_i hproto
    rw [if_neg hproto] at hvalues
    split at h
    · rename_i hmultiple
      split at h
      · rename_i hown
        refine hvalues _ (Except.ok.inj h).symm ?_
        rw [Option.elim_some, put, if_pos hmultiple, hown]
        rfl
      · rename_i items hown
        refine hvalues _ (Except.ok.inj h).symm ?_
        rw [Option.elim_some, put, if_pos hmultiple, hown]
        rfl
      · cases h
    · rename_i hmultiple
      refine hvalues _ (Except.ok.inj h).symm ?_
      rw [Option.elim_some, put, if_neg hmultiple]

theorem store_value {v : Value} (h : s.store (findLong options name) name raw index (some v) true inlineValue true = .ok s') :
    Records options [.option name raw index (some v) inlineValue] s s' ∧ Stays s s' :=
  store_records h (by simp [Token.stored])

theorem store_true (h : s.store (findLong options name) name raw index none true none true = .ok s') (hname : Token.longName options raw = name) :
    Records options [.option name raw index none none] s s' ∧ Stays s s' :=
  store_records h (by simp [Token.stored, hname])

theorem store_false (h : s.store (findLong options name) name raw index none false none false = .ok s')
    (hname : Token.longName options raw = no ++ name) : Records options [.option name raw index none none] s s' ∧ Stays s s' := by
  refine store_records h ?_
  have hne : no ++ name ≠ name := by
    intro he
    have hlength := congrArg List.length he
    rw [length_append] at hlength
    have hthree : no.length = 3 := rfl
    omega
  simp [Token.stored, hname, hne]

theorem negativeName_some {positive : Text} (h : negativeName name = some positive) : name = no ++ positive := by
  rw [negativeName] at h
  split at h
  · rename_i hno
    obtain ⟨rest, rfl⟩ := isPrefixOf_iff_prefix.mp hno
    rw [Option.some.injEq] at h
    rw [← h]
    rfl
  · cases h

/-- **`pa_store_flag`** stores what its token says. -/
theorem storeFlag_records (h : s.storeFlag c (findLong c.options name) name raw index = .ok s') (hname : Token.longName c.options raw = name) :
    ∃ n, Flag c.options raw n ∧ Records c.options [.option n raw index none none] s s' ∧ Stays s s' := by
  rw [State.storeFlag] at h
  split at h
  · rename_i positive hpositive
    have hno : name = no ++ positive := by
      split at hpositive
      · exact negativeName_some hpositive
      · cases hpositive
    have hflag := hname.trans hno
    exact ⟨positive, .inr hflag, store_false h hflag⟩
  · exact ⟨name, .inl hname, store_true h hname⟩

/-- The value of an option is the next argument. -/
theorem storeSeparate_records {isShort : Bool} {v : Value} (h : s.storeSeparate c (findLong c.options name) name raw isShort v = .ok s') :
    Records c.options [.option name raw s.index (some v) (some false)] s s' ∧ s'.index = s.index + 1 ∧
      s'.consumed = s.consumed ++ [s.index + 1] := by
  obtain ⟨-, -, h⟩ := bind_ok h
  obtain ⟨s1, hstore, h⟩ := bind_ok h
  obtain ⟨hrecords, -⟩ := store_value hstore
  obtain rfl := Except.ok.inj h
  exact ⟨⟨⟨hrecords.tokens, hrecords.values, hrecords.positionals⟩, hrecords.afterTerminator⟩, rfl, rfl⟩

end Store

/-! ### Groups and long options -/

variable {c : Settings} {s s' : State}

/-- Whether a value was passed over. -/
def Passes (s s' : State) (next value : Option Value) : Prop :=
  value = none ∧ Stays s s' ∨ value ≠ none ∧ value = next ∧ s'.index = s.index + 1 ∧ s'.consumed = s.consumed ++ [s.index + 1]

theorem unitText_single (u : UInt16) : ∃ ch, unitText u = [ch] := by
  have hdecode : Utf16.decode [u] = [.inr u] ∨ Utf16.decode [u] = [.inl (Char.ofNat u.toNat)] := by
    rw [Utf16.decode]
    split
    · exact .inl rfl
    · exact .inr rfl
  rw [unitText, fromUtf16, JsStrings.stringFromUtf16]
  obtain hd | hd := hdecode
  · rw [hd]
    exact ⟨_, show deref (.utf16 [u]) = _ by rw [deref, hd]; rfl⟩
  · rw [hd]
    exact ⟨_, rfl⟩

theorem longName_short (u : UInt16) : Token.longName options ('-' :: unitText u) = (findShort options (unitText u)).1 := by
  obtain ⟨ch, hch⟩ := unitText_single u
  rw [hch]
  rfl

theorem findShort_desc (short : Text) : (findShort options short).2 = findLong options (findShort options short).1 := by
  rw [findShort]
  split <;> rfl

/-- **A group** is read as its tokens, and the first loop passes over the same value. -/
theorem group_records {next : Option Value} {units : Units} (h : State.group c next units s = .ok s') :
    ∃ own value, Group c.options s.index units own value ∧ Records c.options own s s' ∧ Passes s s' next value ∧
      (value ≠ none ↔ groupConsumes c.options units = true ∧ next ≠ none) := by
  induction units generalizing s with
  | nil =>
    obtain rfl := Except.ok.inj h
    exact ⟨[], none, .nil, .nil s, .inl ⟨rfl, rfl, rfl⟩, by simp [groupConsumes]⟩
  | cons unit rest ih =>
    have hname : Token.longName c.options ('-' :: unitText unit) = (findShort c.options (unitText unit)).1 := longName_short unit
    have hdesc : (findShort c.options (unitText unit)).2 = findLong c.options (findShort c.options (unitText unit)).1 := findShort_desc _
    rw [State.group] at h
    simp only [hdesc] at h
    rw [groupConsumes, hdesc]
    generalize hn : (findShort c.options (unitText unit)).1 = name at h hname ⊢
    split at h
    · cases h
    · split at h
      · rename_i hstring
        rw [if_pos hstring]
        split at h
        · rename_i hrest
          obtain ⟨hrecords, hstays⟩ := store_value h
          refine ⟨_, none, hn ▸ .inlined hrest, hrecords, .inl ⟨rfl, hstays⟩, ?_⟩
          simp [hrest]
        · rename_i hrest
          rw [not_not] at hrest
          subst hrest
          cases next with
          | some value =>
            obtain ⟨hrecords, hindex, hconsumed⟩ := storeSeparate_records h
            refine ⟨_, some value, hn ▸ .separate, hrecords, .inr ⟨Option.some_ne_none _, rfl, hindex, hconsumed⟩, ?_⟩
            simp
          | none =>
            simp only at h
            split at h
            · cases h
            · obtain ⟨n, hflag, hrecords, hstays⟩ := storeFlag_records h hname
              exact ⟨_, none, .flag hflag .nil, hrecords, .inl ⟨rfl, hstays⟩, by simp⟩
      · rename_i hstring
        rw [if_neg hstring]
        obtain ⟨s1, hflag, h⟩ := bind_ok h
        obtain ⟨n, hn', hrecords, hindex, hconsumed⟩ := storeFlag_records hflag hname
        obtain ⟨own, value, hgroup, hrecords', hpasses, hiff⟩ := ih h
        rw [hindex] at hgroup
        refine ⟨_, value, .flag hn' hgroup, hrecords.append hrecords', ?_, hiff⟩
        rw [Passes, Stays, ← hindex, ← hconsumed]
        exact hpasses

/-- A long option with its value. -/
theorem longInline_records {name value : Text} (h : s.longInline c name value = .ok s') :
    Records c.options [.option name (dashes ++ name) s.index (some (.string (.utf8 value))) (some true)] s s' ∧ Stays s s' := by
  obtain ⟨-, -, h⟩ := bind_ok h
  exact store_value h

theorem longName_long {raw : Text} (hdashed : dashes.isPrefixOf raw = true) (hne : raw ≠ dashes) :
    Token.longName options raw = raw.drop 2 := by
  obtain ⟨rest, rfl⟩ := isPrefixOf_iff_prefix.mp hdashed
  cases rest with
  | nil => exact absurd (append_nil _) hne
  | cons ch rest => rfl

/-- A long option without one: the first loop passes over the same value. -/
theorem longPlain_records {next : Option Value} {raw : Text} (hdashed : dashes.isPrefixOf raw = true) (hne : raw ≠ dashes)
    (h : s.longPlain c next raw = .ok s') : ∃ name value, Records c.options [.option name raw s.index value (value.map fun _ => false)] s s' ∧
      (value = none → Flag c.options raw name) ∧ (value ≠ none → name = raw.drop 2) ∧ Passes s s' next value ∧
      (value ≠ none ↔ (findLong c.options (raw.drop 2)).bind descType = some true ∧ next ≠ none) := by
  have hname : Token.longName c.options raw = raw.drop 2 := longName_long hdashed hne
  simp only [State.longPlain] at h
  split at h
  · rename_i hstring
    cases next with
    | some v =>
      obtain ⟨hrecords, hindex, hconsumed⟩ := storeSeparate_records h
      exact ⟨raw.drop 2, some v, hrecords, fun hv => absurd hv (Option.some_ne_none _), fun _ => rfl,
        .inr ⟨Option.some_ne_none _, rfl, hindex, hconsumed⟩, by simp [hstring]⟩
    | none =>
      simp only at h
      split at h
      · cases h
      · obtain ⟨n, hflag, hrecords, hstays⟩ := storeFlag_records h hname
        exact ⟨n, none, hrecords, fun _ => hflag, fun hv => absurd rfl hv, .inl ⟨rfl, hstays⟩, by simp⟩
  · rename_i hstring
    generalize hpositive : (if c.allowNegative then negativeName (raw.drop 2) else none) = positive at h
    split at h
    · cases h
    · cases positive with
      | some positive =>
        have hno : raw.drop 2 = no ++ positive := by
          split at hpositive
          · exact negativeName_some hpositive
          · cases hpositive
        obtain ⟨hrecords, hstays⟩ := store_false h (hname.trans hno)
        exact ⟨positive, none, hrecords, fun _ => .inr (hname.trans hno), fun hv => absurd rfl hv, .inl ⟨rfl, hstays⟩, by simp [hstring]⟩
      | none =>
        obtain ⟨hrecords, hstays⟩ := store_true h hname
        exact ⟨raw.drop 2, none, hrecords, fun _ => .inl hname, fun hv => absurd rfl hv, .inl ⟨rfl, hstays⟩, by simp [hstring]⟩

theorem longEq_some {text name value : Text} (hdashed : dashes.isPrefixOf text = true) (h : longEq text = some (name, value)) :
    text = dashes ++ name ++ ['='] ++ value := by
  obtain ⟨rest, rfl⟩ := isPrefixOf_iff_prefix.mp hdashed
  rw [longEq] at h
  split at h
  · rename_i hmem
    obtain ⟨rfl, rfl⟩ := Prod.mk.inj (Option.some.inj h)
    have hrest : '=' ∈ rest := mem_of_mem_drop (i := 1) hmem
    have hdrop : (dashes ++ rest).drop 2 = rest := rfl
    rw [hdrop]
    have hne : rest.dropWhile (· ≠ '=') ≠ [] := by
      intro hnil
      rw [dropWhile_eq_nil_iff] at hnil
      simpa using hnil '=' hrest
    obtain ⟨ch, tail, htail⟩ := exists_cons_of_ne_nil hne
    have hch : ch = '=' := by
      have hhead := head_dropWhile_not (p := (· ≠ '=')) (l := rest) hne
      simp only [htail, head_cons] at hhead
      simpa using hhead
    subst hch
    have hsplit := takeWhile_append_dropWhile (p := (· ≠ '=')) (l := rest)
    rw [htail] at hsplit
    rw [htail, drop_one, tail_cons, append_assoc, append_assoc]
    exact congrArg (dashes ++ ·) hsplit.symm
  · cases h

theorem length_le_flatMap {α β : Type} {f : α → List β} (l : List α) (hf : ∀ a ∈ l, f a ≠ []) : l.length ≤ (l.flatMap f).length := by
  induction l with
  | nil => exact Nat.zero_le _
  | cons a l ih =>
    rw [forall_mem_cons] at hf
    have hpos := length_pos_iff.mpr hf.1
    have hle := ih hf.2
    rw [flatMap_cons, length_append, length_cons]
    omega

/-- No unit is more than a character. -/
theorem length_deref_le (s : JsString) : (deref s).length ≤ (encodeUtf16 s).length := by
  have hchar : ∀ ch, Utf16.encodeChar ch ≠ [] := by
    intro ch
    rw [Utf16.encodeChar]
    split <;> exact cons_ne_nil _ _
  cases s with
  | utf8 text => exact length_le_flatMap text fun ch _ => hchar ch
  | utf16 units =>
    have hle := length_le_flatMap (Utf16.decode units) (f := Utf16.encodeItem) fun item _ => by
      cases item with
      | inl ch => exact hchar ch
      | inr u => exact cons_ne_nil _ _
    rw [Utf16.flatMap_decode] at hle
    rw [deref, length_map]
    exact hle

theorem units_of_group {string : JsString} (h : isShortGroup (deref string) = true) : (encodeUtf16 string).drop 1 ≠ [] := by
  have hle := length_deref_le string
  rw [isShortGroup, Bool.and_eq_true, decide_eq_true_iff, decide_eq_true_iff] at h
  obtain ⟨hlong, hhead⟩ := h
  rw [Ne, drop_eq_nil_iff, not_le]
  cases htext : deref string with
  | nil =>
    rw [htext] at hhead
    cases hhead
  | cons ch rest =>
    rw [htext] at hhead hlong hle
    obtain rfl := Option.some.inj hhead
    cases rest with
    | nil => exact absurd hlong (by decide)
    | cons ch' rest =>
      rw [length_cons, length_cons] at hle
      omega

/-- A string without U+FFFD is what it is coerced to. -/
theorem encode_deref {s : JsString} (h : Char.ofNat 0xFFFD ∉ deref s) : encodeUtf16 s = Utf16.encode (deref s) := by
  cases s with
  | utf8 text => rfl
  | utf16 units =>
    have hitem : ∀ item ∈ Utf16.decode units, Utf16.encodeItem item = Utf16.encodeChar (item.elim id fun _ => Char.ofNat 0xFFFD) := by
      intro item hitem
      cases item with
      | inl ch => rfl
      | inr u => exact absurd (mem_map.mpr ⟨Sum.inr u, hitem, rfl⟩) h
    have hall := Utf16.flatMap_decode units
    rw [flatMap_congr hitem] at hall
    rw [deref, Utf16.encode, flatMap_map]
    exact hall.symm

theorem eqStr_dashes {s : JsString} (h : deref s = dashes) : eqStr s dashes = true := by
  rw [eqStr, decide_eq_true_iff, ← h]
  exact encode_deref (by rw [h]; decide)

/-! ### One turn of both loops -/

/-- The first loop at the same place. -/
def State.toScan (s : State) : Scan := ⟨s.afterTerminator, s.index, s.consumed⟩

/-- Arguments have been read as some tokens. -/
structure Read (options : Option Value) (args : List Value) (own : List Token) (s s' : State) : Prop extends Holds options own s s' where
  consumed : s'.consumed = s.consumed ++ own.filterMap Token.separate
  reads : ∀ ts, Reads options args s.index ts → Reads options args s'.index (ts ++ own)

theorem Read.of_passes {arg : Value} {own : List Token} {value : Option Value} {s1 : State} (harg : args[s.index]? = some arg)
    (hs : Spells options s.index arg own value) (hrecords : Records options own s s1)
    (hpasses : Passes s s1 (args[s.index + 1]?.filter Value.usable) value) :
    Read options args own s { s1 with index := s1.index + 1 } ∧ s.index < s1.index + 1 := by
  obtain ⟨-, -, hseparate⟩ := hs.tokens
  obtain ⟨rfl, hindex, hconsumed⟩ | ⟨hsome, hnext, hindex, hconsumed⟩ := hpasses
  · refine ⟨⟨⟨hrecords.tokens, hrecords.values, hrecords.positionals⟩, ?_, fun ts hr => ?_⟩, by omega⟩
    · rw [hseparate]
      exact hconsumed.trans (append_nil _).symm
    · show Reads options args (s1.index + 1) _
      rw [hindex]
      exact .own hr harg hs
  · obtain ⟨v, rfl⟩ := Option.ne_none_iff_exists'.mp hsome
    have hv : args[s.index + 1]? = some v := (Option.filter_eq_some_iff.mp hnext.symm).1
    refine ⟨⟨⟨hrecords.tokens, hrecords.values, hrecords.positionals⟩, ?_, fun ts hr => ?_⟩, by omega⟩
    · rw [hseparate]
      exact hconsumed
    · show Reads options args (s1.index + 1) _
      rw [hindex]
      exact .separate hr harg hv hs

theorem Read.positional {arg : Value} (harg : args[s.index]? = some arg) :
    Read options args [.positional s.index arg] s (s.positional arg) where
  tokens := rfl
  values := rfl
  positionals := rfl
  consumed := (append_nil _).symm
  reads _ hr := .own hr harg .positional

/-- **One turn**: the argument is read as its tokens, and the first loop goes on to the same argument. -/
theorem argument_turn {texts : Display} {arg : Value} (harg : args[s.index]? = some arg) (h : s.argument texts c args arg = .ok s') :
    ∃ own, (Read c.options args own s s' ∧ s.index < s'.index) ∧ s.toScan.argument c.options args arg = .ok s'.toScan := by
  -- a positional, where the first loop goes on by one
  have hplain : (if c.allowPositionals then Except.ok (s.positional arg) else .error (unexpected texts arg)) = .ok s' →
      s.toScan.argument c.options args arg = .ok { s.toScan with index := s.index + 1 } →
      ∃ own, (Read c.options args own s s' ∧ s.index < s'.index) ∧ s.toScan.argument c.options args arg = .ok s'.toScan := by
    intro hplain hscan
    split at hplain
    · obtain rfl := Except.ok.inj hplain
      exact ⟨_, ⟨.positional harg, Nat.lt_succ_self _⟩, hscan⟩
    · cases hplain
  -- tokens, where the first loop goes on by one or two
  have hadvance : ∀ {string s1 own value}, arg = .string string → s' = { s1 with index := s1.index + 1 } →
      s.afterTerminator = false → ¬eqStr string dashes = true → Spells c.options s.index arg own value → Records c.options own s s1 →
      Passes s s1 (args[s.index + 1]?.filter Value.usable) value →
      (value ≠ none ↔ consumesNext c.options string = true ∧ args[s.index + 1]?.filter Value.usable ≠ none) →
      ∃ own, (Read c.options args own s s' ∧ s.index < s'.index) ∧ s.toScan.argument c.options args arg = .ok s'.toScan := by
    rintro string s1 own value rfl rfl hafter hne hs hrecords hpasses hiff
    refine ⟨own, Read.of_passes harg hs hrecords hpasses, ?_⟩
    have husable : args[s.index + 1]?.filter Value.usable ≠ none ↔ args[s.index + 1]?.any Value.usable = true := by
      cases args[s.index + 1]? with
      | none => simp
      | some v => simp [Option.filter_some]
    rw [husable, ← Bool.and_eq_true] at hiff
    have hcond : s.toScan.argument c.options args (.string string) =
        if consumesNext c.options string && args[s.index + 1]?.any Value.usable then
          .ok { s.toScan with index := s.index + 2, consumed := s.consumed ++ [s.index + 1] }
        else .ok { s.toScan with index := s.index + 1 } := by
      simp [Scan.argument, State.toScan, hafter, Value.usable, Value.kind, Value.asString, hne]
    rw [hcond]
    obtain ⟨rfl, hindex, hconsumed⟩ | ⟨hsome, -, hindex, hconsumed⟩ := hpasses
    · rw [if_neg (fun hc => hiff.mpr hc rfl)]
      simp only [State.toScan, hrecords.afterTerminator, hindex, hconsumed]
    · rw [if_pos (hiff.mp hsome)]
      simp only [State.toScan, hrecords.afterTerminator, hindex, hconsumed]
  rw [State.argument] at h
  simp only at h
  split at h
  · rename_i hafter
    exact hplain h (by simp [Scan.argument, State.toScan, hafter])
  · rename_i hafter
    rw [Bool.not_eq_true] at hafter
    split at h
    · cases h
    · rename_i husable
      split at h
      · rename_i hstring
        exact hplain h (by simp [Scan.argument, State.toScan, hafter, husable, hstring])
      · rename_i string hstring
        have harg' : arg = .string string := by
          cases arg <;> simp [Value.asString] at hstring
          rw [hstring]
        split at h
        · rename_i hdashes
          obtain rfl := Except.ok.inj h
          refine ⟨[.terminator s.index], ⟨⟨⟨rfl, rfl, (append_nil _).symm⟩, (append_nil _).symm, fun ts hr => ?_⟩, Nat.lt_succ_self _⟩, ?_⟩
          · exact .own hr harg (harg' ▸ .terminator hdashes)
          · simp [Scan.argument, State.toScan, State.push, hafter, husable, hstring, hdashes]
        · rename_i hne
          split at h
          · rename_i hdashed
            have hconsumes : ∀ b, longEq (deref string) = b → consumesNext c.options string =
                (b = none && (findLong c.options ((deref string).drop 2)).bind descType = some true) := by
              rintro b rfl
              rw [consumesNext, if_pos hdashed]
            cases heq : longEq (deref string) with
            | some pair =>
              rw [heq] at h
              obtain ⟨s1, hlong, hs'⟩ := map_ok h
              obtain ⟨hrecords, hstays⟩ := longInline_records hlong
              refine hadvance harg' hs'.symm hafter hne (harg' ▸ .inlined (longEq_some hdashed heq)) hrecords (.inl ⟨rfl, hstays⟩) ?_
              simp [hconsumes _ heq]
            | none =>
              rw [heq] at h
              obtain ⟨s1, hlong, hs'⟩ := map_ok h
              obtain ⟨name, value, hrecords, hflag, hname, hpasses, hiff⟩ := longPlain_records hdashed (mt eqStr_dashes hne) hlong
              refine hadvance harg' hs'.symm hafter hne ?_ hrecords hpasses ?_
              · cases value with
                | none => exact harg' ▸ .flag hdashed (hflag rfl)
                | some v =>
                  obtain ⟨rest, hrest⟩ := isPrefixOf_iff_prefix.mp hdashed
                  refine harg' ▸ .separate ?_
                  rw [hname (Option.some_ne_none v), ← hrest]
                  rfl
              · rw [hiff, hconsumes _ heq]
                simp
          · rename_i hdashed
            split at h
            · rename_i hgroup
              obtain ⟨s1, hg, hs'⟩ := map_ok h
              obtain ⟨own, value, hspells, hrecords, hpasses, hiff⟩ := group_records hg
              have hconsumes : consumesNext c.options string = groupConsumes c.options ((encodeUtf16 string).drop 1) := by
                rw [consumesNext, if_neg hdashed, if_neg (by simp [hgroup])]
              have hunits := units_of_group hgroup
              exact hadvance harg' hs'.symm hafter hne (harg' ▸ .group rfl hunits hspells) hrecords hpasses (by rw [hconsumes]; exact hiff)
            · rename_i hgroup
              refine hplain h ?_
              have hconsumes : consumesNext c.options string = false := by
                rw [consumesNext, if_neg hdashed, if_pos (by simpa using hgroup)]
              simp [Scan.argument, State.toScan, hafter, husable, hstring, hne, hconsumes]

theorem Read.append {own own' : List Token} {s s' s'' : State} (h : Read options args own s s') (h' : Read options args own' s' s'') :
    Read options args (own ++ own') s s'' where
  toHolds := h.toHolds.append h'.toHolds
  consumed := by rw [h'.consumed, h.consumed, filterMap_append, append_assoc]
  reads ts hr := by
    rw [← append_assoc]
    exact h'.reads _ (h.reads ts hr)

theorem Read.nil (s : State) : Read options args [] s s where
  toHolds := .nil s
  consumed := (append_nil _).symm
  reads ts hr := by rwa [append_nil]

/-- **Both loops**: all arguments are read as tokens, and the first loop takes the same turns. -/
theorem loop_read {texts : Display} (h : State.loop texts c args n s = .ok s') :
    ∃ own, Read c.options args own s s' ∧ Scan.loop c.options args n s.toScan = .ok s'.toScan ∧
      (args.length ≤ s.index + n → args.length ≤ s'.index) := by
  induction n generalizing s with
  | zero =>
    obtain rfl := Except.ok.inj h
    exact ⟨[], .nil s, rfl, id⟩
  | succ n ih =>
    rw [State.loop] at h
    rw [Scan.loop]
    cases harg : args[s.index]? with
    | none =>
      rw [harg] at h
      obtain rfl := Except.ok.inj h
      have hscan : args[s.toScan.index]? = none := harg
      rw [hscan]
      exact ⟨[], .nil s, rfl, fun _ => List.getElem?_eq_none_iff.mp harg⟩
    | some arg =>
      rw [harg] at h
      obtain ⟨s1, hturn, h⟩ := bind_ok h
      obtain ⟨own, ⟨hread, hindex⟩, hargument⟩ := argument_turn harg hturn
      obtain ⟨own', hread', hloop, hall⟩ := ih h
      have hscan : args[s.toScan.index]? = some arg := harg
      rw [hscan]
      refine ⟨own ++ own', hread.append hread', ?_, fun hn => hall (by omega)⟩
      show (s.toScan.argument c.options args arg >>= Scan.loop c.options args n) = _
      rw [hargument]
      exact hloop

/-! ### The values -/

theorem get_set (entries : Object) (key : JsString) (value : Value) (units : Units) :
    (entries.set key value).get units = if encodeUtf16 key = units then some value else entries.get units := by
  induction entries with
  | nil =>
    rw [Object.set, Object.get, find?_cons]
    split <;> simp_all [Object.get]
  | cons entry entries ih =>
    rw [Object.set]
    split
    · rename_i hkey
      rw [Object.get, Object.get, find?_cons, find?_cons, hkey]
      by_cases hname : encodeUtf16 key = units
      · simp [hname]
      · simp [hname]
    · rename_i hkey
      rw [Object.get, Object.get, find?_cons, find?_cons]
      by_cases hname : encodeUtf16 entry.1 = units
      · have hne : encodeUtf16 key ≠ units := fun he => hkey (hname.trans he.symm)
        simp [hname, hne]
      · simp only [hname, decide_false]
        exact ih

theorem own_eq_get (entries : Object) (name : Text) : entries.own name = entries.get (Utf16.encode name) := rfl

theorem findLong_eq_get (options : Option Value) (name : Text) :
    findLong options name = (options.bind Value.entries).bind (Object.get · (Utf16.encode name)) := by
  cases options <;> rfl

/-- The stored values are the fold of the tokens: each has what was stored for it. -/
theorem get_foldl (options : Option Value) (ts : List Token) (key : Units) :
    (ts.foldl (Token.apply options) ([] : Object)).get key = kept options ts key := by
  rw [kept]
  induction ts using reverseRecOn with
  | nil => rfl
  | append_singleton ts t ih =>
    have happend : storedFor options (ts ++ [t]) key = storedFor options ts key ++ storedFor options [t] key := filterMap_append
    rw [foldl_append, foldl_cons, foldl_nil, Token.apply]
    cases hstored : t.stored options with
    | none =>
      have hnone : storedFor options [t] key = [] := by simp [storedFor, hstored]
      rw [happend, hnone, append_nil]
      exact ih
    | some entry =>
      rw [Option.elim_some, put, findLong_eq_get, own_eq_get]
      by_cases hname : Utf16.encode entry.1 = key
      · have hone : storedFor options [t] key = [entry.2] := by simp [storedFor, hstored, hname]
        have hne : storedFor options ts key ++ [entry.2] ≠ [] := by simp
        rw [happend, hone, hname]
        by_cases hmultiple : ((options.bind Value.entries).bind (Object.get · key)).any descMultiple = true
        · rw [if_pos hmultiple, if_neg hne, if_pos hmultiple, get_set, encodeUtf16, if_pos hname, ih]
          split
          · rename_i hnil
            rw [hnil]
            rfl
          · rfl
        · rw [if_neg hmultiple, if_neg hne, if_neg hmultiple, get_set, encodeUtf16, if_pos hname, List.getLast?_concat]
      · have hnone : storedFor options [t] key = [] := by simp [storedFor, hstored, hname]
        rw [happend, hnone, append_nil]
        split
        · rw [get_set, encodeUtf16, if_neg hname]
          exact ih
        · rw [get_set, encodeUtf16, if_neg hname]
          exact ih

/-! ### The defaults -/

/-- Its key is not what it is coerced to. -/
def Lone (s : JsString) : Prop := eqStr s (deref s) = false

/-- Where the key of an option is not what it is coerced to, the loop over the defaults finds nothing under what it is coerced
to: neither a value that is stored nor the default of an option before. -/
def Clear (entries values : Object) : Prop :=
  ∀ before entry after, entries = before ++ entry :: after → descDefault entry.2 ≠ none → Lone entry.1 →
    values.own (deref entry.1) = none ∧ Object.defaultOf before (Utf16.encode (deref entry.1)) = none

theorem deref_of_encode {s : JsString} {text : Text} (h : encodeUtf16 s = Utf16.encode text) : deref s = text := by
  cases s with
  | utf8 own => exact JsStrings.encode_injective h
  | utf16 units =>
    obtain rfl : units = Utf16.encode text := h
    rw [deref, Utf16.decode_encode, map_map]
    exact map_id _

theorem Lone.ne_encode {s : JsString} (h : Lone s) (text : Text) : encodeUtf16 s ≠ Utf16.encode text := by
  intro he
  have hself : eqStr s (deref s) = true := decide_eq_true (by rw [he, deref_of_encode he])
  rw [h] at hself
  cases hself

theorem encode_of_not_lone {s : JsString} (h : ¬Lone s) : Utf16.encode (deref s) = encodeUtf16 s :=
  (of_decide_eq_true (Bool.not_eq_false _ ▸ h)).symm

variable {entries values : Object} {entry : JsString × Value}

theorem defaultOf_cons (entry : JsString × Value) (entries : Object) (key : Units) :
    Object.defaultOf (entry :: entries) key = (Object.defaultOf [entry] key).or (entries.defaultOf key) := by
  rw [Object.defaultOf, Object.defaultOf, Object.defaultOf]
  split
  · rfl
  · rw [findSome?_cons, findSome?_cons, List.findSome?_nil]
    split <;> simp_all

/-- The default comes to the values, unless the option is looked up under another key that has a value. -/
theorem get_applyDefault (hlone : Lone entry.1 → values.get (encodeUtf16 entry.1) = none)
    (h : descDefault entry.2 ≠ none → Lone entry.1 → values.own (deref entry.1) = none) (key : Units) :
    (applyDefault values entry).get key = (values.get key).or (Object.defaultOf [entry] key) := by
  rw [applyDefault, Object.defaultOf, findSome?_cons, List.findSome?_nil]
  by_cases hkey : encodeUtf16 entry.1 = key
  · subst hkey
    rw [if_pos rfl]
    by_cases hproto : encodeUtf16 entry.1 = Utf16.encode proto
    · rw [if_pos (by simp [eqStr, hproto]), if_pos hproto, Option.or_none]
    · rw [if_neg hproto]
      have hfound : descDefault entry.2 ≠ none → values.own (deref entry.1) = values.get (encodeUtf16 entry.1) := by
        intro hdefault
        by_cases hl : Lone entry.1
        · rw [h hdefault hl, hlone hl]
        · rw [own_eq_get, encode_of_not_lone hl]
      have hno : eqStr entry.1 proto = false := decide_eq_false hproto
      cases hdefault : descDefault entry.2 with
      | none => simp
      | some default =>
        rw [hno, Bool.false_or, hfound (by simp [hdefault])]
        cases hget : values.get (encodeUtf16 entry.1) with
        | some v => simp [hget]
        | none => simp [get_set]
  · have hkeep : ∀ v, (values.set entry.1 v).get key = values.get key := fun v => by rw [get_set, if_neg hkey]
    rw [if_neg hkey]
    split
    · simp
    · split <;> simp [hkeep]

/-- The other keys are left alone. -/
theorem get_applyDefaults_of_ne {key : Units} (h : ∀ entry ∈ entries, encodeUtf16 entry.1 ≠ key) :
    (applyDefaults entries values).get key = values.get key := by
  induction entries generalizing values with
  | nil => rfl
  | cons entry entries ih =>
    obtain ⟨hne, hrest⟩ := forall_mem_cons.mp h
    rw [applyDefaults, foldl_cons, ← applyDefaults, ih hrest, applyDefault]
    split
    · rfl
    · split
      · rw [get_set, if_neg hne]
      · rfl

theorem clear_cons (hstep : ∀ key, (applyDefault values entry).get key = (values.get key).or (Object.defaultOf [entry] key)) :
    Clear (entry :: entries) values ↔
      (descDefault entry.2 ≠ none → Lone entry.1 → values.own (deref entry.1) = none) ∧ Clear entries (applyDefault values entry) := by
  have hsame : ∀ (before : Object) (other : JsString × Value),
      values.own (deref other.1) = none ∧ Object.defaultOf (entry :: before) (Utf16.encode (deref other.1)) = none ↔
        (applyDefault values entry).own (deref other.1) = none ∧ before.defaultOf (Utf16.encode (deref other.1)) = none := by
    intro before other
    rw [own_eq_get, own_eq_get, hstep, defaultOf_cons, Option.or_eq_none_iff, Option.or_eq_none_iff, and_assoc]
  constructor
  · intro h
    refine ⟨fun hdefault hl => (h [] entry entries rfl hdefault hl).1, fun before other after hsplit hdefault hl => ?_⟩
    exact (hsame before other).mp (h (entry :: before) other after (congrArg (entry :: ·) hsplit) hdefault hl)
  · rintro ⟨hfirst, hrest⟩ before other after hsplit hdefault hl
    cases before with
    | nil =>
      obtain ⟨rfl, rfl⟩ := List.cons.inj hsplit
      refine ⟨hfirst hdefault hl, ?_⟩
      rw [Object.defaultOf]
      exact ite_self none
    | cons first before =>
      obtain ⟨rfl, rfl⟩ := List.cons.inj hsplit
      exact (hsame before other).mpr (hrest before other after rfl hdefault hl)

/-- **All defaults come to the values** just where the loop finds nothing under what a key is coerced to. -/
theorem get_applyDefaults_iff (hd : (entries.map fun entry => encodeUtf16 entry.1).Nodup)
    (hlone : ∀ entry ∈ entries, Lone entry.1 → values.get (encodeUtf16 entry.1) = none) :
    (∀ key, (applyDefaults entries values).get key = (values.get key).or (entries.defaultOf key)) ↔ Clear entries values := by
  induction entries generalizing values with
  | nil =>
    refine iff_of_true (fun key => ?_) fun before entry after hsplit => by simp at hsplit
    rw [Object.defaultOf, List.findSome?_nil, ite_self, Option.or_none]
    rfl
  | cons entry entries ih =>
    rw [map_cons, nodup_cons] at hd
    obtain ⟨hnew, hd⟩ := hd
    have hother : ∀ other ∈ entries, encodeUtf16 other.1 ≠ encodeUtf16 entry.1 := fun other ho he => hnew (mem_map.mpr ⟨other, ho, he⟩)
    obtain ⟨hl, hrest⟩ := forall_mem_cons.mp hlone
    by_cases hfirst : descDefault entry.2 ≠ none → Lone entry.1 → values.own (deref entry.1) = none
    · have hstep := get_applyDefault hl hfirst
      rw [clear_cons hstep, and_iff_right hfirst, ← ih hd fun other ho hlo => ?_]
      · refine forall_congr' fun key => ?_
        rw [defaultOf_cons, hstep, Option.or_assoc]
        rfl
      · rw [hstep, hrest other ho hlo, Option.none_or, Object.defaultOf, findSome?_cons, List.findSome?_nil,
          if_neg (hother other ho).symm]
        exact ite_self none
    · -- the default is dropped, and no later option has its key
      refine iff_of_false (fun h => ?_) fun h => hfirst fun hdefault hlo => (h [] entry entries rfl hdefault hlo).1
      simp only [Classical.not_imp] at hfirst
      obtain ⟨hdefault, hlo, hfound⟩ := hfirst
      obtain ⟨default, hdefault⟩ := Option.ne_none_iff_exists'.mp hdefault
      have hskip : applyDefault values entry = values := by
        rw [applyDefault, if_pos]
        rw [Option.isSome_iff_ne_none.mpr hfound, Bool.or_true]
      have hkey := h (encodeUtf16 entry.1)
      rw [applyDefaults, foldl_cons, ← applyDefaults, hskip, get_applyDefaults_of_ne hother, hl hlo, Object.defaultOf,
        if_neg (hlo.ne_encode proto), findSome?_cons, if_pos rfl, hdefault] at hkey
      cases hkey

/-! ### The whole -/

theorem Reads.le_length (h : Reads options args n ts) : n ≤ args.length := by
  cases h with
  | nil => exact Nat.zero_le _
  | own _ harg _ => exact (List.getElem?_eq_some_iff.mp harg).1
  | separate _ _ hvalue _ => exact (List.getElem?_eq_some_iff.mp hvalue).1

/-- No two entries have the same key. -/
def Value.Distinct (v : Value) : Prop := ∀ entries, v.entries = some entries → (entries.map fun entry => encodeUtf16 entry.1).Nodup

theorem readConfig_options {texts : Display} {argv : List JsString} {config : Value} {args : List Value} {c : Settings}
    (h : readConfig texts argv config = .ok (args, c)) :
    c.options = (member config "options".toList).filter fun value => value.kind ≠ .null := by
  rw [readConfig] at h
  split at h
  · cases h
  · obtain ⟨_, -, h⟩ := bind_ok h
    obtain ⟨_, hsettings, h⟩ := bind_ok h
    cases h
    obtain ⟨_, -, hsettings⟩ := bind_ok hsettings
    obtain ⟨_, -, hsettings⟩ := bind_ok hsettings
    obtain ⟨_, -, hsettings⟩ := bind_ok hsettings
    obtain ⟨_, -, hsettings⟩ := bind_ok hsettings
    obtain ⟨_, -, hsettings⟩ := bind_ok hsettings
    cases hsettings
    rfl

theorem readConfig_distinct {texts : Display} {argv : List JsString} {config : Value} {args : List Value} {c : Settings}
    (hkeys : ∀ options, member config "options".toList = some options → options.Distinct)
    (h : readConfig texts argv config = .ok (args, c)) :
    (((c.options.bind Value.entries).getD []).map fun entry => encodeUtf16 entry.1).Nodup := by
  rw [readConfig_options h]
  cases hoptions : (member config "options".toList).filter fun value => value.kind ≠ .null with
  | none => exact nodup_nil
  | some options =>
    have hmember := (Option.filter_eq_some_iff.mp hoptions).1
    cases hentries : options.entries with
    | none => simp [hentries]
    | some entries => simpa [hentries] using hkeys options hmember entries hentries

/-- A key that is no `str` has no stored value. -/
theorem kept_of_lone {s : JsString} (h : Lone s) : kept options ts (encodeUtf16 s) = none := by
  rw [kept, if_pos]
  rw [storedFor, filterMap_eq_nil_iff]
  intro t _
  cases t.stored options with
  | none => rfl
  | some entry => exact if_neg (h.ne_encode entry.1).symm

/-- **`util.parseArgs` is consistent.** Where it does not throw, the two loops pass over the same
arguments as values of options, which the tokens say; the tokens stand in the order of their
arguments, and every argument is accounted for once; the positionals and the stored values are the fold of
the tokens. The values are that over the defaults just where the loop over these finds nothing under
what a key is coerced to. -/
theorem utilParseArgs_consistent {texts : Display} {argv : List JsString} {config : Value} {r : Result}
    (hkeys : ∀ options, member config "options".toList = some options → options.Distinct)
    (h : utilParseArgs texts argv config = .ok r) :
    ∃ args c s ts, readConfig texts argv config = .ok (args, c) ∧ run texts c args = .ok s ∧
      scan c.options args = .ok s.toScan ∧ s.consumed = ts.filterMap Token.separate ∧
      r.tokens = (if c.returnTokens then some ts else none) ∧ (ts.map Token.index).Pairwise (· ≤ ·) ∧
      (∀ t ∈ ts, t.index < args.length) ∧ AccountedOnce c.options args args.length ts ∧
      r.positionals = ts.filterMap Token.positionalValue ∧ (∀ key, s.values.get key = kept c.options ts key) ∧
      ((∀ key, r.values.get key = folded c.options ts key) ↔ Clear ((c.options.bind Value.entries).getD []) s.values) := by
  obtain ⟨⟨args, c⟩, hconfig, h⟩ := bind_ok h
  obtain ⟨_, -, h⟩ := bind_ok h
  obtain ⟨s, hrun, h⟩ := bind_ok h
  obtain rfl := Except.ok.inj h
  obtain ⟨ts, hread, hscan, hall⟩ := loop_read hrun
  have hreads : Reads c.options args s.index ts := hread.reads [] .nil
  obtain hlength : s.index = args.length := le_antisymm hreads.le_length (hall (Nat.le_add_left _ _))
  rw [hlength] at hreads
  have hvalues : ∀ key, s.values.get key = kept c.options ts key := by
    intro key
    rw [← get_foldl]
    exact congrArg (Object.get · key) hread.values
  refine ⟨args, c, s, ts, hconfig, hrun, hscan, hread.consumed, ?_, hreads.sorted, hreads.lt.1, hreads.accountedOnce, hread.positionals,
    hvalues, ?_⟩
  · show s.tokens = _
    rw [hread.tokens]
    split <;> rfl
  · rw [← get_applyDefaults_iff (readConfig_distinct hkeys hconfig) fun entry _ hl => (hvalues _).trans (kept_of_lone hl)]
    refine forall_congr' fun key => ?_
    rw [folded, hvalues]

/-- A group with a value, a value in the next argument, a default and a positional. -/
def sampleConfig : Value :=
  let text (s : String) : JsString := .utf8 s.toList
  let option (entries : Object) (type : String) : Value := .object ((text "type", .string (text type)) :: entries)
  .object [
    (text "args", .array (["-vn", "4", "--out", "file", "rest"].map fun s => .string (text s))),
    (text "allowPositionals", .boolean true),
    (text "tokens", .boolean true),
    (text "options", .object [
      (text "verbose", option [(text "short", .string (text "v"))] "boolean"),
      (text "number", option [(text "short", .string (text "n"))] "string"),
      (text "out", option [] "string"),
      (text "mode", option [(text "default", .string (text "fast"))] "string")])]

def noDisplay : Display := ⟨fun _ => [], fun _ => [], fun _ => []⟩

theorem utilParseArgs_consistent_sample : ∃ r, utilParseArgs noDisplay [] sampleConfig = .ok r ∧
    r.positionals = [.string (.utf8 "rest".toList)] ∧ ∃ args c ts, readConfig noDisplay [] sampleConfig = .ok (args, c) ∧
      r.tokens = (if c.returnTokens then some ts else none) ∧ AccountedOnce c.options args args.length ts ∧
      ∀ key, r.values.get key = folded c.options ts key := by
  have hok : ∃ r, utilParseArgs noDisplay [] sampleConfig = .ok r ∧ r.positionals = [.string (.utf8 "rest".toList)] := ⟨_, rfl, rfl⟩
  obtain ⟨r, hr, hpositionals⟩ := hok
  have hkeys : ∀ options, member sampleConfig "options".toList = some options → options.Distinct := by
    rintro _ ⟨⟩ _ ⟨⟩
    decide
  obtain ⟨args, c, s, ts, hconfig, -, -, -, htokens, -, -, hall, -, -, hvalues⟩ := utilParseArgs_consistent hkeys hr
  refine ⟨r, hr, hpositionals, args, c, ts, hconfig, htokens, hall, hvalues.mpr fun before entry after hsplit _ hl => ?_⟩
  -- every key is what it is coerced to
  cases hconfig
  have hplain : (before ++ entry :: after).all (fun e => eqStr e.1 (deref e.1)) = true := by
    rw [← hsplit]
    rfl
  have hentry := all_eq_true.mp hplain entry (by simp)
  cases hl.symm.trans hentry

/-- A key that is a lone surrogate is coerced to U+FFFD, which has a value. -/
def droppedConfig : Value :=
  let text (s : String) : JsString := .utf8 s.toList
  .object [
    (text "args", .array [.string (.utf8 ("--".toList ++ [Char.ofNat 0xFFFD] ++ "=v".toList))]),
    (text "strict", .boolean false),
    (text "tokens", .boolean true),
    (text "options", .object [
      (.utf16 [0xD800], .object [(text "type", .string (text "string")), (text "default", .string (text "x"))])])]

theorem utilParseArgs_drops :
    ¬ ∀ (config : Value) (r : Result) (args : List Value) (c : Settings) (ts : List Token),
      (∀ options, member config "options".toList = some options → options.Distinct) →
      utilParseArgs noDisplay [] config = .ok r → readConfig noDisplay [] config = .ok (args, c) → r.tokens = some ts →
        ∀ key, r.values.get key = folded c.options ts key := by
  intro h
  have hkeys : ∀ options, member droppedConfig "options".toList = some options → options.Distinct := by
    rintro _ ⟨⟩ _ ⟨⟩
    decide
  cases h droppedConfig _ _ _ _ hkeys rfl rfl rfl [0xD800]

end Scriptc.RuntimeRust.ParseArgs
