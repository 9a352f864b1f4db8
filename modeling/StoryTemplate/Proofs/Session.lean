import Mathlib.Data.List.DropRight
import Mathlib.Data.List.Induction
import Mathlib.Data.List.Nodup
import StoryTemplate.Engine
import StoryTemplate.Proofs.Lookups

/-! # Sessions — an engine is the log of its writes

    An engine keeps a context between calls, and a rendering on it both reads and
    writes that context.  From outside it is no more than a log: each dictionary
    of the context binds a name to the value last written to it, and a rendering
    is the one of a context that nobody keeps.

    The declared injections of a template come to the look-up twice, written into
    the context and laid over it; the second time changes nothing
    (`Dict.insertAll_insertAll`).

    Main facts: `Document.render_extendInjections` (a document whose declarations
    are already in the context renders alike), `Engine.process_fst` (the answer of
    a rendering) and `session_refines` (sessions of any length). -/

namespace StoryTemplate

/-! ## The last of several values -/

/-- The value of the last pair with the name. -/
def lastValue? {α : Type} (pairs : List (Text × α)) (name : Text) : Option α :=
  (pairs.reverse.find? fun pair => pair.1 = name).map Prod.snd

section Last

variable {α : Type} {pairs more : List (Text × α)}

@[simp] theorem lastValue?_nil (name : Text) : lastValue? ([] : List (Text × α)) name = none := rfl

theorem lastValue?_append (pairs more : List (Text × α)) (name : Text) :
    lastValue? (pairs ++ more) name = (lastValue? more name).or (lastValue? pairs name) := by
  rw [lastValue?, List.reverse_append, List.find?_append, Option.map_or]
  rfl

theorem lastValue?_singleton (n : Text) (value : α) (name : Text) :
    lastValue? [(n, value)] name = if name = n then some value else none := by
  by_cases h : n = name
  · rw [if_pos h.symm]
    simp [lastValue?, h]
  · rw [if_neg fun heq => h heq.symm]
    simp [lastValue?, h]

namespace Dict

/-- Of several writes the last one to a name counts, and a name that is not written
    keeps its value. -/
theorem get?_insertAll (d : Dict α) (pairs : List (Text × α)) (name : Text) :
    (d.insertAll pairs).get? name = (lastValue? pairs name).or (d.get? name) := by
  induction pairs generalizing d with
  | nil => rfl
  | cons pair pairs ih =>
      show ((d.insert pair.1 pair.2).insertAll pairs).get? name = _
      rw [ih, get?_insert, ← List.singleton_append, lastValue?_append, lastValue?_singleton]
      cases lastValue? pairs name with
      | some value => rfl
      | none => by_cases h : name = pair.1 <;> simp [h]

/-- What holds of all values before and of all values that are written holds of all
    values after. -/
theorem forall_get?_insertAll {d : Dict α} {pairs : List (Text × α)} {p : α → Prop}
    (hd : ∀ name value, d.get? name = some value → p value) (hpairs : ∀ pair ∈ pairs, p pair.2) :
    ∀ name value, (d.insertAll pairs).get? name = some value → p value := by
  intro name value h
  rw [get?_insertAll, Option.or_eq_some_iff] at h
  rcases h with hlast | ⟨-, hbefore⟩
  · obtain ⟨pair, hfind, rfl⟩ := Option.map_eq_some_iff.1 hlast
    exact hpairs pair (List.mem_reverse.1 (List.mem_of_find?_eq_some hfind))
  · exact hd name value hbefore

/-- Where no two pairs have one name, each of them is found. -/
theorem get?_ofList_of_mem {pairs : List (Text × α)} (hnames : (pairs.map Prod.fst).Nodup)
    {pair : Text × α} (hmem : pair ∈ pairs) : (ofList pairs).get? pair.1 = some pair.2 := by
  have hlast : lastValue? pairs pair.1 = some pair.2 := by
    cases hfind : pairs.reverse.find? fun other => other.1 = pair.1 with
    | none =>
        have hnone := List.find?_eq_none.1 hfind pair (List.mem_reverse.2 hmem)
        exact absurd (decide_eq_true rfl) hnone
    | some other =>
        have hname : other.1 = pair.1 := by simpa using List.find?_some hfind
        have hother := List.mem_reverse.1 (List.mem_of_find?_eq_some hfind)
        rw [lastValue?, hfind, List.inj_on_of_nodup_map hnames hother hmem hname]
        rfl
  rw [ofList, get?_insertAll, hlast]
  rfl

/-- Writing the same pairs again changes nothing. -/
theorem insertAll_insertAll (d : Dict α) (pairs : List (Text × α)) :
    (d.insertAll pairs).insertAll pairs = d.insertAll pairs := by
  refine ext_get? fun name => ?_
  rw [get?_insertAll, get?_insertAll]
  cases lastValue? pairs name with
  | some value => rfl
  | none => rfl

end Dict
end Last

/-! ## Declarations that are already written -/

/-- Injections do not choose branches. -/
theorem choose_extendInjections (context : Context) (pairs : List (Text × Text))
    (policy : VariablePolicy) (expression : Conditional) :
    expression.choose (context.extendInjections pairs) policy =
      expression.choose context policy := by
  cases expression with
  | ternary flag whenTrue whenFalse => rfl
  | matching name arms fallback => rfl

namespace Document

/-- A document whose declarations are already in the context renders as without
    them there. -/
theorem render_extendInjections (document : Document) (context : Context) (config : Config) :
    document.render (context.extendInjections document.injections) config =
      document.render context config := by
  have hsource : document.source (context.extendInjections document.injections) =
      document.source context := Dict.insertAll_insertAll _ _
  refine render_congr (fun name => ?_) (choose_extendInjections context document.injections _)
  rw [hsource]

end Document

namespace Engine

/-- A rendering on an engine comes out as the one of its context. -/
theorem process_fst (engine : Engine) (template : Text) :
    (engine.process template).1 = render template engine.context engine.config := by
  rw [process, render]
  cases Document.read template engine.config with
  | error fault => rfl
  | ok document => exact document.render_extendInjections engine.context engine.config

/-- A rendering leaves the rendering of the same template as it was. -/
theorem render_process_snd (engine : Engine) (template : Text) :
    render template (engine.process template).2.context engine.config =
      render template engine.context engine.config := by
  rw [process, render, render]
  cases Document.read template engine.config with
  | error fault => rfl
  | ok document => exact document.render_extendInjections engine.context engine.config

theorem process_config (engine : Engine) (template : Text) :
    (engine.process template).2.config = engine.config := by
  rw [process]
  cases Document.read template engine.config with
  | error fault => rfl
  | ok document => rfl

end Engine

/-! ## Sessions -/

/-- A call on an engine. -/
inductive Call
  | process (template : Text)
  | setVariable (name : Text) (value : Variable)
  | inject (name value : Text)
  | reset
  deriving DecidableEq

namespace Engine

/-- Does what the call asks for; only a rendering has an answer. -/
def perform (engine : Engine) : Call → Option (Except Fault Rendered) × Engine
  | .process template => (some (engine.process template).1, (engine.process template).2)
  | .setVariable name value => (none, engine.setVariable name value)
  | .inject name value => (none, engine.inject name value)
  | .reset => (none, engine.reset)

/-- Serves the calls in order: the answer of each, and the engine after them. -/
def serve (engine : Engine) : List Call → List (Option (Except Fault Rendered)) × Engine
  | [] => ([], engine)
  | call :: calls =>
      ((engine.perform call).1 :: ((engine.perform call).2.serve calls).1,
        ((engine.perform call).2.serve calls).2)

variable (engine : Engine)

theorem serve_append (calls more : List Call) :
    engine.serve (calls ++ more) =
      ((engine.serve calls).1 ++ ((engine.serve calls).2.serve more).1,
        ((engine.serve calls).2.serve more).2) := by
  induction calls generalizing engine with
  | nil => rfl
  | cons call calls ih =>
      rw [List.cons_append, serve, ih, serve]
      rfl

theorem length_serve (calls : List Call) :
    (engine.serve calls).1.length = calls.length := by
  induction calls generalizing engine with
  | nil => rfl
  | cons call calls ih =>
      rw [serve, List.length_cons, List.length_cons, ih]

theorem perform_config (call : Call) : (engine.perform call).2.config = engine.config := by
  cases call with
  | process template => exact engine.process_config template
  | setVariable name value => rfl
  | inject name value => rfl
  | reset => rfl

/-- No call changes the configuration. -/
theorem serve_config (calls : List Call) :
    (engine.serve calls).2.config = engine.config := by
  induction calls generalizing engine with
  | nil => rfl
  | cons call calls ih => exact (ih _).trans (engine.perform_config call)

/-- The answer of a call in the middle of a session. -/
theorem serve_getElem? (calls : List Call) (call : Call) (more : List Call) :
    (engine.serve (calls ++ call :: more)).1[calls.length]? =
      some ((engine.serve calls).2.perform call).1 := by
  rw [serve_append, List.getElem?_append_right (Nat.le_of_eq (engine.length_serve calls)),
    engine.length_serve, Nat.sub_self]
  rfl

end Engine

/-! ## The log of a session -/

/-- A value written to one of the dictionaries of a context. -/
inductive Write
  | flag (name : Text) (value : Bool)
  | text (name value : Text)
  | injection (name value : Text)

namespace Write

/-- The flag that is written. -/
def flag? : Write → Option (Text × Bool)
  | .flag name value => some (name, value)
  | _ => none

/-- The text variable that is written. -/
def text? : Write → Option (Text × Text)
  | .text name value => some (name, value)
  | _ => none

/-- The injection that is written. -/
def injection? : Write → Option (Text × Text)
  | .injection name value => some (name, value)
  | _ => none

end Write

/-- What a call writes.  A rendering writes the declarations of its template, in
    their order, if the template can be read, and nothing if it cannot. -/
def Call.writes (config : Config) : Call → List Write
  | .process template =>
      match Document.read template config with
      | .error _ => []
      | .ok document => document.injections.map fun pair => .injection pair.1 pair.2
  | .setVariable name (.flag value) => [.flag name value]
  | .setVariable name (.text value) => [.text name value]
  | .inject name value => [.injection name value]
  | .reset => []

/-- What is written since the last reset. -/
def writeLog (config : Config) (calls : List Call) : List Write :=
  (calls.rtakeWhile (· ≠ .reset)).flatMap (Call.writes config)

theorem writeLog_reset (config : Config) (calls : List Call) :
    writeLog config (calls ++ [.reset]) = [] := by
  rw [writeLog, List.rtakeWhile_concat_neg _ _ _ (by simp)]
  rfl

theorem writeLog_concat (config : Config) (calls : List Call) {call : Call}
    (h : call ≠ .reset) :
    writeLog config (calls ++ [call]) =
      writeLog config calls ++ call.writes config := by
  rw [writeLog, List.rtakeWhile_concat_pos _ _ _ (by simpa using h), List.flatMap_append,
    List.flatMap_singleton]
  rfl

/-! ## What a context holds -/

namespace Context

/-- The context after a write. -/
def write (context : Context) : Write → Context
  | .flag name value => context.setVariable name (.flag value)
  | .text name value => context.setVariable name (.text value)
  | .injection name value => context.inject name value

/-- The context binds what the log last wrote. -/
structure Reflects (context : Context) (log : List Write) : Prop where
  flags : ∀ name, context.flags.get? name = lastValue? (log.filterMap Write.flag?) name
  texts : ∀ name, context.texts.get? name = lastValue? (log.filterMap Write.text?) name
  injections : ∀ name,
    context.injections.get? name = lastValue? (log.filterMap Write.injection?) name

variable {context : Context} {log : List Write}

theorem reflects_nothing : ({} : Context).Reflects [] :=
  ⟨fun _ => rfl, fun _ => rfl, fun _ => rfl⟩

/-- Writes of different kinds do not meet. -/
theorem foldl_write (context : Context) (writes : List Write) :
    writes.foldl Context.write context =
      ⟨context.flags.insertAll (writes.filterMap Write.flag?),
        context.texts.insertAll (writes.filterMap Write.text?),
        context.injections.insertAll (writes.filterMap Write.injection?)⟩ := by
  induction writes generalizing context with
  | nil => rfl
  | cons w writes ih =>
      rw [List.foldl_cons, ih]
      cases w with
      | flag name value => rfl
      | text name value => rfl
      | injection name value => rfl

/-- Several writes in order. -/
theorem Reflects.writeAll (h : context.Reflects log) (writes : List Write) :
    (writes.foldl Context.write context).Reflects (log ++ writes) := by
  rw [foldl_write]
  refine ⟨fun name => ?_, fun name => ?_, fun name => ?_⟩
  · rw [List.filterMap_append, lastValue?_append, ← h.flags]
    exact Dict.get?_insertAll _ _ name
  · rw [List.filterMap_append, lastValue?_append, ← h.texts]
    exact Dict.get?_insertAll _ _ name
  · rw [List.filterMap_append, lastValue?_append, ← h.injections]
    exact Dict.get?_insertAll _ _ name

theorem extendInjections_eq (context : Context) (pairs : List (Text × Text)) :
    context.extendInjections pairs =
      (pairs.map fun pair => Write.injection pair.1 pair.2).foldl Context.write context := by
  induction pairs generalizing context with
  | nil => rfl
  | cons pair pairs ih => exact ih (context.inject pair.1 pair.2)

end Context

namespace Engine

/-- Every call but a reset does its writes. -/
theorem perform_context (engine : Engine) {call : Call} (h : call ≠ .reset) :
    (engine.perform call).2.context =
      (call.writes engine.config).foldl Context.write engine.context := by
  cases call with
  | process template =>
      rw [perform, process, Call.writes]
      cases Document.read template engine.config with
      | error fault => rfl
      | ok document => exact Context.extendInjections_eq engine.context document.injections
  | setVariable name value =>
      cases value with
      | flag value => rfl
      | text value => rfl
  | inject name value => rfl
  | reset => exact absurd rfl h

/-- After a session that begins with nothing the context is what the log says. -/
theorem serve_reflects (config : Config) (calls : List Call) :
    ((Engine.mk {} config).serve calls).2.context.Reflects (writeLog config calls) := by
  induction calls using List.reverseRecOn with
  | nil => exact Context.reflects_nothing
  | append_singleton calls call ih =>
      rw [serve_append]
      by_cases h : call = .reset
      · subst h
        rw [writeLog_reset]
        exact Context.reflects_nothing
      · rw [writeLog_concat config calls h]
        show ((((Engine.mk {} config).serve calls).2.perform call).2).context.Reflects _
        rw [perform_context _ h, serve_config]
        exact ih.writeAll (call.writes config)

end Engine

/-! ## Sessions against renderings -/

/-- After any session each name looks up to the value that the log last wrote to it in
    that dictionary; and a rendering in the session, whatever comes before and after
    it, has the outcome of the rendering against the context that it finds, as has a
    second rendering of the same template right after it. -/
theorem session_refines (config : Config) (calls : List Call) :
    let start : Engine := ⟨{}, config⟩
    let context := (start.serve calls).2.context
    let log := writeLog config calls
    (∀ name, context.flags.get? name = lastValue? (log.filterMap Write.flag?) name) ∧
    (∀ name, context.texts.get? name = lastValue? (log.filterMap Write.text?) name) ∧
    (∀ name, context.injections.get? name =
      lastValue? (log.filterMap Write.injection?) name) ∧
    (∀ template more, (start.serve (calls ++ .process template :: more)).1[calls.length]? =
      some (some (render template context config))) ∧
    ∀ template more,
      (start.serve (calls ++ .process template :: .process template :: more)).1[
        calls.length + 1]? = some (some (render template context config)) := by
  intro start context log
  have hconfig : (start.serve calls).2.config = config := start.serve_config calls
  have hlog := Engine.serve_reflects config calls
  refine ⟨hlog.flags, hlog.texts, hlog.injections, ?_, ?_⟩
  · intro template more
    rw [Engine.serve_getElem?, Engine.perform, Engine.process_fst, hconfig]
  · intro template more
    have hsecond := start.serve_getElem? (calls ++ [.process template])
      (.process template) more
    rw [List.append_assoc, List.length_append] at hsecond
    refine hsecond.trans ?_
    have hfirst : (start.serve (calls ++ [.process template])).2 =
        ((start.serve calls).2.process template).2 := by
      rw [Engine.serve_append]
      rfl
    rw [hfirst, Engine.perform, Engine.process_fst, Engine.process_config,
      Engine.render_process_snd, hconfig]

end StoryTemplate
