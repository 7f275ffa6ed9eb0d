import Frontend.Ast.Token

namespace Frontend.Parse

open Ast

inductive Node where
  | other (children : List Node)
  | fn (closure : Bool) (ident : Span) (children : List Node) (body : Option (List Node))

abbrev Block := List Node
abbrev Crate := List Node

structure Splice where
  blocks : List (Span × Block)
  inconsistent : Bool

namespace Splice

def remove (ident : Span) : List (Span × Block) → Option (Block × List (Span × Block))
  | [] => none
  | entry :: blocks =>
    if entry.1 = ident then some (entry.2,blocks)
    else (remove ident blocks).map fun r => (r.1,entry :: r.2)

-- `inserted` walks a block that was put in place during the visit
mutual

def visitNode (inserted : Splice → Block → Splice × Block) : Splice → Node → Splice × Node
  | s, .other children =>
    let (s,children) := visitNodes inserted s children
    (s,.other children)
  | s, .fn closure ident children body =>
    match (if closure then none else remove ident s.blocks), body with
    | some (_,blocks), some body =>
      let (s,children) := visitNodes inserted ⟨blocks,true⟩ children
      let (s,body) := visitNodes inserted s body
      (s,.fn closure ident children (some body))
    | some (block,blocks), none =>
      let (s,children) := visitNodes inserted { s with blocks := blocks } children
      let (s,block) := inserted s block
      (s,.fn closure ident children (some block))
    | none, some body =>
      let (s,children) := visitNodes inserted s children
      let (s,body) := visitNodes inserted s body
      (s,.fn closure ident children (some body))
    | none, none =>
      let (s,children) := visitNodes inserted s children
      (s,.fn closure ident children none)

def visitNodes (inserted : Splice → Block → Splice × Block) : Splice → List Node → Splice × List Node
  | s, [] => (s,[])
  | s, node :: nodes =>
    let (s,node) := visitNode inserted s node
    let (s,nodes) := visitNodes inserted s nodes
    (s,node :: nodes)

end

-- each nesting of an inserted block inside another uses up one of the blocks
def visitBlock : Nat → Splice → Block → Splice × Block
  | 0, s, block => (s,block)
  | depth + 1, s, block => visitNodes (visitBlock depth) s block

def visitCrate (s : Splice) (krate : Crate) : Splice × Crate := visitBlock (s.blocks.length + 1) s krate

end Splice

end Frontend.Parse
