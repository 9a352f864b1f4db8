import StoryTemplate.Text.Basic

/-! # Nodes — structured data

    Data as a file holds it: scalars, sequences of nodes and mappings from
    scalars to nodes.  What a scalar is depends on the notation of the file.  A
    mapping keeps its entries as they are written, in order and with repeated
    keys, since the reader of a mapping decides what a repeated key means. -/

namespace StoryTemplate

/-- Structured data over scalars of type `σ`. -/
inductive Node (σ : Type)
  | scalar (value : σ)
  | sequence (items : List (Node σ))
  | mapping (entries : List (σ × Node σ))
  deriving Inhabited

end StoryTemplate
