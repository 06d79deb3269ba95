import NearMiss.HeaderIndex

/-! Common names of the C and C++ standard libraries, with the headers that declare them. -/
namespace NearMiss.HeaderIndex

/-- Names in groups, by the header that declares them. -/
def standardNames : List (String × List String) :=
  [("<cstddef>", ["size_t", "ptrdiff_t", "nullptr_t"]),
   ("<cstdint>", ["int8_t", "int16_t", "int32_t", "int64_t", "uint8_t", "uint16_t", "uint32_t",
     "uint64_t", "uintptr_t"]),
   ("<cstdio>", ["printf", "fprintf", "snprintf", "puts", "FILE", "fopen"]),
   ("<cstdlib>", ["malloc", "free", "abort", "exit"]),
   ("<cstring>", ["memcpy", "memset", "strlen", "strcmp"]),
   ("<vector>", ["vector"]),
   ("<array>", ["array"]),
   ("<deque>", ["deque"]),
   ("<list>", ["list"]),
   ("<forward_list>", ["forward_list"]),
   ("<map>", ["map", "multimap"]),
   ("<set>", ["set", "multiset"]),
   ("<unordered_map>", ["unordered_map"]),
   ("<unordered_set>", ["unordered_set"]),
   ("<queue>", ["queue", "priority_queue"]),
   ("<stack>", ["stack"]),
   ("<span>", ["span"]),
   ("<string>", ["string", "wstring", "to_string"]),
   ("<string_view>", ["string_view"]),
   ("<iostream>", ["cout", "cerr", "cin"]),
   ("<ostream>", ["endl"]),
   ("<sstream>", ["stringstream", "ostringstream"]),
   ("<fstream>", ["ifstream", "ofstream"]),
   ("<utility>", ["pair", "move", "forward", "swap"]),
   ("<tuple>", ["tuple"]),
   ("<optional>", ["optional"]),
   ("<variant>", ["variant"]),
   ("<any>", ["any"]),
   ("<functional>", ["function"]),
   ("<memory>", ["unique_ptr", "shared_ptr", "weak_ptr", "make_unique", "make_shared"]),
   ("<algorithm>", ["sort", "find", "min", "max"]),
   ("<numeric>", ["accumulate"]),
   ("<limits>", ["numeric_limits"]),
   ("<thread>", ["thread"]),
   ("<mutex>", ["mutex"]),
   ("<atomic>", ["atomic"]),
   ("<initializer_list>", ["initializer_list"])]

/-- The entries of the standard index, in the order they are interned. -/
def standardEntries : List (String × String) :=
  standardNames.flatMap fun (header, names) => names.map (·, header)

def standard : Interning HeaderIndex := ofEntries standardEntries

end NearMiss.HeaderIndex
