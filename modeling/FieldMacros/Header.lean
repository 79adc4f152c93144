import FieldMacros.Counting
import FieldMacros.Family

/-!
# The generated header

A header is laid out in one order only: the preamble with the two macros that
start a count, the selector and the sequence, the variants from depth one on,
and the postlude. A variant names its parent, so each is defined before it is
used.
-/

namespace FieldMacros

structure Header where
  depth : Depth
  counting : Counting
  variants : List Macro
  deriving DecidableEq

namespace Header

def ofDepth (d : Depth) : Header where
  depth := d
  counting := Counting.ofDepth d
  variants := Family.upTo d

/-- The comments and directives that open every header. -/
def banner : String :=
  "// clang-format off\n" ++
  "// Copyright 2016 MongoDB Inc.\n" ++
  "//\n" ++
  "// Licensed under the Apache License, Version 2.0 (the \"License\");\n" ++
  "// you may not use this file except in compliance with the License.\n" ++
  "// You may obtain a copy of the License at\n" ++
  "//\n" ++
  "// http://www.apache.org/licenses/LICENSE-2.0\n" ++
  "//\n" ++
  "// Unless required by applicable law or agreed to in writing, software\n" ++
  "// distributed under the License is distributed on an \"AS IS\" BASIS,\n" ++
  "// WITHOUT WARRANTIES OR CONDITIONS OF ANY KIND, either express or implied.\n" ++
  "// See the License for the specific language governing permissions and\n" ++
  "// limitations under the License.\n" ++
  "\n" ++
  "#pragma once\n" ++
  "\n" ++
  "#include <mangrove/config/prelude.hpp>\n" ++
  "\n" ++
  "// Preprocessor templates for manipulating multiple arguments.\n"

/-- What comes before the macros that depend on the depth. -/
def preamble : String :=
  banner ++ Counting.count.definition ++ "\n" ++ Counting.relay.definition ++ "\n"

def postlude : String :=
  "\n#include <mangrove/config/postlude.hpp>\n// clang-format on\n"

/-- Definitions, a blank line after each. -/
def renderMacros (ms : List Macro) : String :=
  String.join (ms.map fun m => m.definition ++ "\n\n")

def renderVariants (h : Header) : String :=
  renderMacros h.variants

def render (h : Header) : String :=
  preamble ++ h.counting.render ++ h.renderVariants ++ postlude

def text (d : Depth) : String :=
  (ofDepth d).render

@[simp]
theorem renderMacros_append (ms ns : List Macro) :
    renderMacros (ms ++ ns) = renderMacros ms ++ renderMacros ns := by
  simp [renderMacros]

end Header

end FieldMacros
