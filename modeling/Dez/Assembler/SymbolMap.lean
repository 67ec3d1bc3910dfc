import Dez.OnceMap
import Dez.Assembler.Symbols

/-! The symbol table is a map that takes each name once; its cache is only a hint. -/
namespace Dez.Assembler

/-- The arguments of `symbol_table_add`, with a name that fits an entry. -/
structure Definition where
  name : CString 63
  type : SymbolType
  address : Word
  value : Word
  stringValue : Option (List Byte)
  line : ℕ

namespace Definition

def entry (definition : Definition) : Symbol :=
  newEntry definition.name.chars definition.type definition.address definition.value
    definition.stringValue definition.line

def add (definition : Definition) (table : SymbolTable) : Bool × SymbolTable × List Message :=
  symbolTableAdd table definition.name.chars definition.type definition.address definition.value
    definition.stringValue definition.line

end Definition

inductive Call
  | add (definition : Definition)
  | find (name : CString 63)

inductive Answer
  | added (success : Bool)
  | found (symbol : Option Symbol)

/-- The table with other contents of its `hash_table`. -/
def SymbolTable.withCache (table : SymbolTable) (cache : CArray (Option ℕ) 256) : SymbolTable :=
  { table with hashTable := cache }

namespace Call

def answer (table : SymbolTable) : Call → Answer
  | add definition => .added (definition.add table).1
  | find name => .found (symbolTableFind table name.chars).1

def after (table : SymbolTable) : Call → SymbolTable
  | add definition => (definition.add table).2.1
  | find name => (symbolTableFind table name.chars).2

end Call

/-- The calls so far with their answers, and the table. Each call may find anything in the cache,
also what the calls before it left there. -/
inductive Called : List (Call × Answer) → SymbolTable → Prop
  | init : Called [] symbolTableInit
  | call {history : List (Call × Answer)} {table : SymbolTable} (h : Called history table)
      (cache : CArray (Option ℕ) 256) (call : Call) :
      Called (history ++ [(call, call.answer (table.withCache cache))])
        (call.after (table.withCache cache))

/-- The entries of the successful additions. -/
def created (history : List (Call × Answer)) : List Symbol :=
  history.filterMap fun
    | (.add definition, .added true) => some definition.entry
    | _ => none

/-- The entry of the first successful addition of a name. -/
def firstAdded (history : List (Call × Answer)) (name : CString 63) : Option Symbol :=
  (created history).find? fun symbol => decide (symbol.name = name)

abbrev SymbolMap : Type := OnceMap Symbol.name 1024

variable {table table' : SymbolTable} {map : SymbolMap} {history history' : List (Call × Answer)}

theorem entry_name (definition : Definition) : definition.entry.name = definition.name :=
  CString.copy_self definition.name

/-- A search answers from the entries alone. -/
theorem find_eq_get (h : map.values = table.symbols) (name : CString 63) :
    (symbolTableFind table name.chars).1 = map.get name := by
  cases hfind : (symbolTableFind table name.chars).1 with
  | none =>
    symm
    rw [OnceMap.get_eq_none_iff, h, List.mem_map]
    rintro ⟨symbol, hsymbol, rfl⟩
    exact find_eq_none hfind symbol hsymbol rfl
  | some symbol =>
    obtain ⟨hsymbol, hname⟩ := find_eq_some hfind
    obtain rfl : symbol.name = name := CString.ext_chars hname
    exact (OnceMap.get_of_mem (h ▸ hsymbol)).symm

theorem takes_iff (h : map.values = table.symbols) (definition : Definition) :
    table.Takes definition.name.chars ↔ map.values.length < 1024 ∧
      definition.entry.name ∉ map.values.map Symbol.name := by
  rw [SymbolTable.Takes, h, entry_name]
  refine and_congr_right' ?_
  rw [List.mem_map, not_exists]
  refine forall_congr' fun symbol => ?_
  rw [not_and]
  exact imp_congr_right fun _ =>
    not_congr ⟨fun hname => CString.ext_chars hname, congrArg CString.chars⟩

/-- An addition does what the map's does, from the entries alone. -/
theorem add_eq_insert (h : map.values = table.symbols) (definition : Definition) :
    (definition.add table).1 = (map.insert definition.entry).1 ∧
      (map.insert definition.entry).2.values = (definition.add table).2.1.symbols := by
  have htakes := takes_iff h definition
  have hadd : (definition.add table).1 = true ↔ table.Takes definition.name.chars :=
    add_succeeds_iff
  rw [OnceMap.insert]
  split
  · rename_i ht
    have hs := htakes.mpr ht
    refine ⟨hadd.mpr hs, ?_⟩
    rw [Definition.add, symbols_add_of_takes hs]
    exact congrArg (· ++ [definition.entry]) h
  · rename_i ht
    have hs := mt htakes.mp ht
    refine ⟨(Bool.not_eq_true _).mp (mt hadd.mp hs), ?_⟩
    rw [Definition.add, symbols_add_of_not_takes hs]
    exact h

theorem answer_eq (h : map.values = table.symbols) (h' : map.values = table'.symbols)
    (call : Call) : call.answer table = call.answer table' := by
  cases call with
  | add definition =>
    rw [Call.answer, Call.answer, (add_eq_insert h definition).1, (add_eq_insert h' definition).1]
  | find name => rw [Call.answer, Call.answer, find_eq_get h, find_eq_get h']

/-- The entries are those of the successful additions, as a map. -/
theorem map_of_called (h : Called history table) :
    ∃ map : SymbolMap, map.values = table.symbols ∧ map.values = created history := by
  induction h with
  | init => exact ⟨.empty, rfl, rfl⟩
  | @call history table h cache call ih =>
    obtain ⟨map, hvalues, hcreated⟩ := ih
    have hstart : map.values = (table.withCache cache).symbols := hvalues
    cases call with
    | find name =>
      refine ⟨map, hstart.trans (symbols_find (table.withCache cache) name.chars).symm, ?_⟩
      rw [created, List.filterMap_append, hcreated]
      exact (List.append_nil _).symm
    | add definition =>
      obtain ⟨hsuccess, hadded⟩ := add_eq_insert hstart definition
      refine ⟨(map.insert definition.entry).2, hadded, ?_⟩
      rw [OnceMap.values_insert, created, List.filterMap_append, hcreated, Call.answer, hsuccess]
      cases (map.insert definition.entry).1 with
      | true => rfl
      | false => exact (List.append_nil _).symm

theorem called_last {step : Call × Answer} (h : Called (history ++ [step]) table) :
    ∃ before cache, Called history before ∧
      step.2 = step.1.answer (before.withCache cache) := by
  generalize hall : history ++ [step] = all at h
  cases h with
  | init => exact absurd hall (List.append_ne_nil_of_right_ne_nil _ (List.cons_ne_nil _ _))
  | call h cache call =>
    obtain ⟨rfl, hstep⟩ := List.append_inj' hall rfl
    cases hstep
    exact ⟨_, cache, h, rfl⟩

/-- The same calls are answered the same, whatever the caches held. -/
theorem called_unique (h : Called history table) (h' : Called history' table')
    (hcalls : history'.map Prod.fst = history.map Prod.fst) : history' = history := by
  induction h generalizing history' table' with
  | init => exact List.map_eq_nil_iff.mp hcalls
  | @call history table h cache call ih =>
    rw [List.map_append] at hcalls
    obtain ⟨earlier, last, rfl, hearlier, hlast⟩ := List.map_eq_append_iff.mp hcalls
    obtain ⟨step, rfl, hstep⟩ := List.map_eq_singleton_iff.mp hlast
    obtain ⟨before, cache', hbefore, hanswer⟩ := called_last h'
    obtain rfl := ih hbefore hearlier
    obtain ⟨map, hvalues, hcreated⟩ := map_of_called h
    obtain ⟨map', hvalues', hcreated'⟩ := map_of_called hbefore
    have hsame : map.values = (before.withCache cache').symbols :=
      (hcreated.trans hcreated'.symm).trans hvalues'
    have hstart : map.values = (table.withCache cache).symbols := hvalues
    obtain ⟨call', answer⟩ := step
    obtain rfl : call' = call := hstep
    rw [show answer = _ from hanswer, answer_eq hsame hstart]

/-- The symbol table is a map that takes a name once, whatever is in its cache at any time. -/
theorem symbol_table_is_once_map (h : Called history table) :
    (table.symbols.map Symbol.name).Nodup ∧
      (∀ cache name, (symbolTableFind (table.withCache cache) name.chars).1 =
        firstAdded history name) ∧
      (∀ cache (definition : Definition), (definition.add (table.withCache cache)).1 = false ↔
        definition.name ∈ table.symbols.map Symbol.name ∨ table.symbols.length = 1024) ∧
      ∀ history' table', Called history' table' →
        history'.map Prod.fst = history.map Prod.fst → history' = history := by
  obtain ⟨map, hvalues, hcreated⟩ := map_of_called h
  refine ⟨hvalues ▸ map.once, ?_, ?_, fun _ _ h' hcalls => called_unique h h' hcalls⟩
  · intro cache name
    have hstart : map.values = (table.withCache cache).symbols := hvalues
    rw [find_eq_get hstart, OnceMap.get, hcreated]
    rfl
  · intro cache definition
    have hstart : map.values = (table.withCache cache).symbols := hvalues
    rw [(add_eq_insert hstart definition).1, OnceMap.insert_eq_false_iff, hvalues, entry_name]

def loopLabel : Definition := ⟨.ofBytes 63 (bytes "LOOP"), .label, 4, 0, none, 2⟩

/-- A cache that points everywhere to an entry that does not exist. -/
def staleCache : CArray (Option ℕ) 256 := fun _ => some 7

theorem symbol_table_is_once_map_stale :
    let history := [(Call.add loopLabel, Answer.added true)]
    let table := (Call.add loopLabel).after (symbolTableInit.withCache staleCache)
    (table.symbols.map Symbol.name).Nodup ∧
      (∀ cache name, (symbolTableFind (table.withCache cache) name.chars).1 =
        firstAdded history name) ∧
      (∀ cache (definition : Definition), (definition.add (table.withCache cache)).1 = false ↔
        definition.name ∈ table.symbols.map Symbol.name ∨ table.symbols.length = 1024) ∧
      ∀ history' table', Called history' table' →
        history'.map Prod.fst = history.map Prod.fst → history' = history := by
  have hcalled : Called [(Call.add loopLabel, Answer.added true)]
      ((Call.add loopLabel).after (symbolTableInit.withCache staleCache)) :=
    .call .init staleCache (.add loopLabel)
  exact symbol_table_is_once_map hcalled

end Dez.Assembler
