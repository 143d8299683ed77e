import StreamingFft.Core.Basic
import StreamingFft.Text.Layout
/-!
Two texts of a tree: one that builds it again, and an indented list of its nodes.
-/
namespace StreamingFft.Core
open Text

/-- The nested text that builds the tree again. -/
def configuration : Core → String
  | leaf l => l.configuration
  | fourStep s sub1 sub2 =>
    s!"Fft4Step({s.size},\n{indent 1 sub1.configuration},\n{indent 1 sub2.configuration},\n" ++
      s!"\tmultiplier={s.multiplier.configuration},\n" ++
      s!"\ttwiddleBits={s.twiddleWidth.configuration})"
  | radix4 s _ sub1 =>
    s!"FftSpdf({s.size},\n{indent 1 sub1.configuration},\n" ++
      s!"\tmultiplier={s.multiplier.configuration},\n" ++
      s!"\ttwiddleBits={s.twiddleWidth.configuration})"

/-- The first line of a composite. -/
def headline (c : Core) (s : Stage) : String :=
  s!"{s.size}: twiddleBits={s.twiddleWidth.text}, delay={c.delay}"

/-- A line per node, each indented by its depth; a radix-4 stage has a line of its own. -/
def description : Core → String
  | leaf l => l.description
  | fourStep s sub1 sub2 =>
    headline (fourStep s sub1 sub2) s ++ "\n" ++ indent 1 sub1.description ++ "\n" ++
      indent 1 sub2.description
  | radix4 s d sub1 =>
    headline (radix4 s d sub1) s ++ s!"\n\t4: (spdf stage), delay={d}\n" ++
      indent 1 sub1.description

end StreamingFft.Core
