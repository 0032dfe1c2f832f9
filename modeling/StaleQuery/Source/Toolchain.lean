import StaleQuery.Json.Reader
import StaleQuery.Source.Program

/-!
What checking stands on: a parser of the dialects and a runtime that reads JSON. Checking makes do
with any of them; the grammar of this library is one such parser.
-/

namespace StaleQuery

/-- The part of a number that 32 bits hold. -/
def Point.wrap (p : Point) : Point :=
  ⟨p.row % UInt32.size, p.column % UInt32.size⟩

/-- Rows and columns that 32 bits hold. -/
def Point.Narrow (p : Point) : Prop :=
  p.row < UInt32.size ∧ p.column < UInt32.size

theorem Point.narrow_wrap (p : Point) : p.wrap.Narrow :=
  ⟨Nat.mod_lt _ (by decide), Nat.mod_lt _ (by decide)⟩

namespace Tree

/-- The nodes of the tree stand at rows and columns of 32 bits. -/
inductive Narrow : Tree → Prop where
  | node {label children} : label.range.start.Narrow → label.range.stop.Narrow →
      (∀ c ∈ children, Narrow c) → Narrow (node label children)

mutual
/-- The tree as it is handed over by a parser that counts with 32 bits. -/
def wrap : Tree → Tree
  | node label children =>
    node { label with range := ⟨label.range.start.wrap, label.range.stop.wrap⟩ } (wrapAll children)

def wrapAll : List Tree → List Tree
  | [] => []
  | t :: rest => t.wrap :: wrapAll rest
end

mutual
theorem narrow_wrap : ∀ t : Tree, t.wrap.Narrow
  | node label children => by
    rw [wrap]
    exact .node label.range.start.narrow_wrap label.range.stop.narrow_wrap
      (narrow_wrapAll children)

theorem narrow_wrapAll : ∀ children : List Tree, ∀ c ∈ wrapAll children, c.Narrow
  | [], _, h => by cases h
  | t :: rest, c, h => by
    rw [wrapAll] at h
    rcases List.mem_cons.mp h with rfl | h
    · exact narrow_wrap t
    · exact narrow_wrapAll rest c h
end

end Tree

structure Toolchain where
  parse : Source.Dialect → ByteArray → Tree
  /-- A parser counts rows and columns with 32 bits. -/
  narrow : ∀ dialect data, (parse dialect data).Narrow
  limits : Json.Limits

namespace Toolchain

/-- The grammar of this library with the usual room for JSON. -/
def standard : Toolchain where
  parse dialect data := (Source.parse dialect data).wrap
  narrow dialect data := (Source.parse dialect data).narrow_wrap
  limits := .standard

end Toolchain
end StaleQuery
