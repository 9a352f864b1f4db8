import StoryTemplate.Text.Basic

/-! # Configuration of a rendering

    How unset variables count, how many passes a stage may take and which lines
    divide a template into sections.  The bound on passes is a word of 64 bits.

    Main facts: `toNat_limit` (the bound that counts) and `limit_lt_iff` (it leaves room
    for one more exactly if the bound that was set does). -/

namespace StoryTemplate

/-- How an expression treats a variable that was never set. -/
inductive VariablePolicy
  /-- A missing flag is false, a missing or empty variable selects the fallback. -/
  | lenient
  /-- A missing variable is a fault. -/
  | strict
  deriving DecidableEq, Repr, Inhabited

/-- The settings of a rendering. -/
structure Config where
  variablePolicy : VariablePolicy := .lenient
  /-- The passes of a stage that may process something; see `Config.limit`. -/
  maxPasses : UInt64 := 256
  /-- The line between the data and the code section. -/
  codeDelimiter : Text := ['$']
  /-- The line before the header section. -/
  headerDelimiter : Text := ['!', '$']
  deriving DecidableEq, Repr, Inhabited

namespace Config

/-- The bound that a rendering keeps to on the passes that process something: at
    least one is always allowed. -/
def limit (config : Config) : UInt64 := max config.maxPasses 1

/-- The configuration with the strict policy. -/
def strict (config : Config) : Config := { config with variablePolicy := .strict }

/-- The configuration with the bound on passes set, at least to one. -/
def withMaxPasses (config : Config) (passes : UInt64) : Config :=
  { config with maxPasses := max passes 1 }

theorem toNat_limit (config : Config) : config.limit.toNat = max config.maxPasses.toNat 1 := by
  rw [limit, Nat.max_def]
  show (if config.maxPasses ≤ 1 then 1 else config.maxPasses).toNat = _
  rw [apply_ite UInt64.toNat]
  rfl

theorem one_le_limit (config : Config) : 1 ≤ config.limit.toNat := by
  rw [toNat_limit]
  exact Nat.le_max_right _ _

/-- A bound with room for one more pass counts as one that has it too. -/
theorem limit_lt_iff {config : Config} :
    config.limit.toNat < UInt64.size - 1 ↔ config.maxPasses.toNat < UInt64.size - 1 := by
  rw [toNat_limit, Nat.max_lt]
  exact and_iff_left (by decide)

end Config
end StoryTemplate
