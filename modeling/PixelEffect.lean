import PixelEffect.CommandLine.Commands
import PixelEffect.Description.Writer
import PixelEffect.Draw
import PixelEffect.Main
import PixelEffect.Node.Edit
import PixelEffect.Node.Equality
import PixelEffect.Proofs.Node.Content
import PixelEffect.Proofs.Node.Attach
import PixelEffect.Proofs.Effect.Call
import PixelEffect.Proofs.Effect.Crafted
import PixelEffect.Proofs.Node.Paint
import PixelEffect.Proofs.Node.Constant
import PixelEffect.Proofs.Effect.Deduced
import PixelEffect.Proofs.Series
import PixelEffect.Proofs.Effect.Refinement
import PixelEffect.Proofs.Effect.Folding
import PixelEffect.Proofs.Node.Flags
import PixelEffect.Proofs.Pool.Basic
import PixelEffect.Proofs.Pool.Flags
import PixelEffect.Proofs.Key.Codes
import PixelEffect.Proofs.Key.Generic
import PixelEffect.Proofs.Key.Emission
import PixelEffect.Proofs.Pool.Programs
import PixelEffect.Proofs.Opacity.Series
import PixelEffect.Proofs.Key.Equality
import PixelEffect.Proofs.Shader.Layout
import PixelEffect.Proofs.Shader.Names
import PixelEffect.Proofs.Shader.Values
import PixelEffect.Proofs.Shader.Program
import PixelEffect.Proofs.Shader.Feeding
import PixelEffect.Proofs.Node.Blueprint
import PixelEffect.Proofs.Effect.Standard
import PixelEffect.Proofs.Effect.Description
import PixelEffect.Proofs.Effect.Building
import PixelEffect.Proofs.Pool.Manufactured
import PixelEffect.Proofs.Pool.ConstantOutput
import PixelEffect.Proofs.Pool.Elimination
import PixelEffect.Proofs.Pool.Observation
import PixelEffect.Proofs.Number.Exact
import PixelEffect.Proofs.Shader.Semantics
import PixelEffect.Proofs.Shader.Expressions
import PixelEffect.Proofs.Shader.Bodies
import PixelEffect.Proofs.Shader.Agreement
import PixelEffect.Proofs.Decimal.Numeral
import PixelEffect.Proofs.Shader.Lexical
import PixelEffect.Proofs.Shader.References
import PixelEffect.Proofs.Shader.BodyUses
import PixelEffect.Proofs.Shader.SourceText
import PixelEffect.Proofs.Shader.Closed
import PixelEffect.Proofs.Shader.Declarations
import PixelEffect.Proofs.Pool.ClosedPrograms
import PixelEffect.Proofs.Node.Announced
import PixelEffect.Proofs.Pool.Exchange
import PixelEffect.Proofs.Effect.Normal
import PixelEffect.Proofs.Pool.Normal
import PixelEffect.Proofs.Json.Number
import PixelEffect.Proofs.Description.RoundTrip
import PixelEffect.Proofs.Node.Everywhere
import PixelEffect.Proofs.Key.Skeleton
import PixelEffect.Proofs.Pool.Decoding
import PixelEffect.Proofs.Node.Identities
import PixelEffect.Proofs.Effect.Identities
import PixelEffect.Proofs.Pool.Identities
import PixelEffect.Proofs.Node.Copy
import PixelEffect.Proofs.Pool.Copies
import PixelEffect.Proofs.Node.Recolor
import PixelEffect.Proofs.Shader.Recolor
import PixelEffect.Proofs.Pool.Recoloring
import PixelEffect.Proofs.Description.Validation
import PixelEffect.Proofs.Description.Outcome
import PixelEffect.Proofs.Node.Preorder
import PixelEffect.Proofs.Node.Walk
import PixelEffect.Proofs.Draw
import PixelEffect.Proofs.Node.Links
import PixelEffect.Proofs.Pool.Session
import PixelEffect.Proofs.Pool.Registration
import PixelEffect.Proofs.Pool.Links
import PixelEffect.Proofs.Number.Products
import PixelEffect.Proofs.Effect.Shortcut
import PixelEffect.Proofs.Pool.Shortcuts
import PixelEffect.Proofs.Blend
import PixelEffect.Proofs.Node.Postorder
import PixelEffect.Proofs.Shader.Emission
import PixelEffect.Proofs.Shader.Builder
import PixelEffect.Proofs.Shader.Interruption
import PixelEffect.Proofs.Shader.Writing
import PixelEffect.Proofs.Node.Independence
import PixelEffect.Proofs.Node.Equality
import PixelEffect.Proofs.Pool.Equality
import PixelEffect.Proofs.Number.Nearest
import PixelEffect.Proofs.Decimal.Shortest
import PixelEffect.Proofs.Decimal.Value
import PixelEffect.Proofs.Decimal.Reading
import PixelEffect.Proofs.Shader.Literals
